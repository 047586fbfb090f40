/-!
# Joining texts

Texts written one after the other with a separator between neighbours.
-/

namespace Blockwright.Text

/-- The texts in order, with `sep` between neighbours. -/
def joinWith (sep : String) : List String → String
  | [] => ""
  | [s] => s
  | s :: rest => s ++ sep ++ joinWith sep rest

@[simp] theorem joinWith_nil (sep : String) : joinWith sep [] = "" := rfl

@[simp] theorem joinWith_singleton (sep s : String) : joinWith sep [s] = s := rfl

theorem joinWith_cons_cons (sep s t : String) (rest : List String) :
    joinWith sep (s :: t :: rest) = s ++ sep ++ joinWith sep (t :: rest) := rfl

/-- `s` written `n` times. -/
def replicate (n : Nat) (s : String) : String :=
  match n with
  | 0 => ""
  | n + 1 => s ++ replicate n s

/-- A line end and the indentation of a level, two blanks deep. -/
def newLine (depth : Nat) : String := "\n" ++ replicate depth "  "

theorem mem_newLine {depth : Nat} {c : Char} (h : c ∈ (newLine depth).toList) :
    c = '\n' ∨ c = ' ' := by
  have hspaces : ∀ c ∈ (replicate depth "  ").toList, c = ' ' := by
    clear h
    induction depth with
    | zero => simp [replicate]
    | succ depth ih => simpa [replicate, String.toList_append] using ih
  rw [newLine, String.toList_append] at h
  rcases List.mem_append.mp h with h | h
  · exact .inl (by simpa using h)
  · exact .inr (hspaces c h)

end Blockwright.Text
