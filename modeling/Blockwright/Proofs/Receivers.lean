import Blockwright.Proofs.Readings

/-!
# Methods and their receivers

The code of a method block reads as a call of the method on the tree that is plugged in as its
receiver, and as nothing else.

Main statement: `Compiler.emit_reads_as_method_call`. It leaves out methods of whole numbers
(`Compiler.whole_receiver_unread`).
-/

namespace Blockwright

open Python

namespace Compiler

open Workspace

/-- The code of a method block has exactly one reading, the call of the method on the tree that is
plugged in as its receiver, unless a method in it is called on a whole number; then it has none. -/
theorem emit_reads_as_method_call (digest : String → String) (growth : List Growth) (ws : Workspace)
    (options : Options) (depth : Nat) (id : BlockId) (b : Block) (m : MethodRule) (receiver : Tree)
    (args : List Tree) (hb : ws.get? id = some b) (hm : b.method? = some m)
    (hreceiver : ws.operand? depth b m.receiver = some receiver)
    (hargs : m.args.mapM (ws.operand? depth b) = some args) :
    let call : Tree := .call (.member receiver m.method) args
    ∃ d code, b.definition? = some d ∧
      Compiler.emit ⟨Registry.stock.grown digest growth, ws, options⟩ id =
        .ok (.ofShape d.schema.shape code .functionCall) ∧
      ∀ t, (∃ ts, Lexes code.toList ts ∧ Forms .disjunction ts t) ↔
        t = call ∧ call.clashes = false := by
  intro call
  have hk := Block.construct?_of_method? hm
  have htree : (Construct.method m).tree? (ws.operand? depth b) = some call :=
    Option.bind_eq_some_iff.mpr ⟨receiver, hreceiver, Option.bind_eq_some_iff.mpr ⟨args, hargs, rfl⟩⟩
  have hwithin := Registry.within_grown digest Registry.stock growth
  generalize Registry.stock.grown digest growth = registry at hwithin ⊢
  have hinside : ws.Inside [] call := ⟨.nil, by simp, by simp⟩
  have hcount : [id].length ≤ ws.capacity := length_le_capacity (by simp) (by simpa using ⟨b, hb⟩)
  obtain ⟨fuel, hfuel⟩ : ∃ fuel, ws.capacity = fuel + [id].length :=
    ⟨ws.capacity - [id].length, by omega⟩
  have hchild : ∀ child e, ws.tree? depth child = some e → sizeOf e < sizeOf call →
      ∃ code produced, emitFrom ⟨registry, ws, options⟩ fuel [id] child =
        .ok (.expression code produced) ∧ Writes produced.phrase code e ∧
        (e.isWhole = true → produced = .atomic) := fun child e he hlt =>
    emitFrom_writes (c := ⟨registry, ws, options⟩) hwithin he (Nat.le_of_eq hfuel)
      (hinside.cons List.not_mem_nil hb hk htree hlt)
  obtain ⟨d, code, hd, hcode, hwrites⟩ :=
    emitFrom_step (c := ⟨registry, ws, options⟩) hwithin hb hk htree List.not_mem_nil hchild
  refine ⟨d, code, hd, ?_, fun t => hwrites.reading_iff⟩
  show emitFrom _ ws.capacity [] id = _
  rw [hfuel]
  exact hcode

/-- The blocks of `(y + 0).split('').append(5)`. -/
def nestedMethods : Workspace :=
  { blocks :=
      #[some { id := ⟨0⟩, typeId := "python_list_append",
               inputs := (Dict.empty.insert "LIST" ⟨1⟩).insert "ARG" ⟨4⟩ },
        some { id := ⟨1⟩, typeId := "python_str_split", inputs := Dict.empty.insert "STRING" ⟨2⟩ },
        some { id := ⟨2⟩, typeId := "python_arithmetic", inputs := Dict.empty.insert "A" ⟨3⟩ },
        some { id := ⟨3⟩, typeId := "python_variable_get", fields := Dict.empty.insert "VAR" "y" },
        some { id := ⟨4⟩, typeId := "python_number", fields := Dict.empty.insert "NUM" "5" }]
    top := [⟨0⟩] }

theorem emit_reads_as_method_call_nested :
    let b : Block := { id := ⟨0⟩, typeId := "python_list_append",
                       inputs := (Dict.empty.insert "LIST" ⟨1⟩).insert "ARG" ⟨4⟩ }
    let receiver : Tree :=
      .call (.member (.binary .add (.name "y") (.number "0")) "split") [.emptyText]
    let call : Tree := .call (.member receiver "append") [.number "5"]
    nestedMethods.get? ⟨0⟩ = some b ∧ b.method? = some ⟨"LIST", "append", ["ARG"]⟩ ∧
    nestedMethods.operand? 3 b "LIST" = some receiver ∧
    ["ARG"].mapM (nestedMethods.operand? 3 b) = some [.number "5"] ∧ call.clashes = false ∧
    ∃ d code, b.definition? = some d ∧
      Compiler.emit ⟨Registry.stock.grown (fun s => s) [], nestedMethods, {}⟩ ⟨0⟩ =
        .ok (.ofShape d.schema.shape code .functionCall) ∧
      ∀ t, (∃ ts, Lexes code.toList ts ∧ Forms .disjunction ts t) ↔
        t = call ∧ call.clashes = false := by
  intro b receiver call
  have hm : b.method? = some ⟨"LIST", "append", ["ARG"]⟩ := by decide +kernel
  have hreceiver : nestedMethods.operand? 3 b "LIST" = some receiver := rfl
  have hargs : ["ARG"].mapM (nestedMethods.operand? 3 b) = some [.number "5"] := rfl
  exact ⟨rfl, hm, hreceiver, hargs, rfl, emit_reads_as_method_call (fun s => s) [] nestedMethods {} 3
    ⟨0⟩ b ⟨"LIST", "append", ["ARG"]⟩ receiver [.number "5"] rfl hm hreceiver hargs⟩

/-- The number 5 as the receiver of a method of texts. -/
def wholeReceiver : Workspace :=
  { blocks :=
      #[some { id := ⟨0⟩, typeId := "python_str_method", inputs := Dict.empty.insert "STRING" ⟨1⟩ },
        some { id := ⟨1⟩, typeId := "python_number", fields := Dict.empty.insert "NUM" "5" }]
    top := [⟨0⟩] }

theorem emit_wholeReceiver {registry : Registry}
    (h : registry = ⟨Catalogue.all, Catalogue.distinct_all⟩) :
    emit ⟨registry, wholeReceiver, {}⟩ ⟨0⟩ = .ok (.expression "5.upper()" .functionCall) := by
  subst h
  decide +kernel

/-- A whole number is not bracketed before the point, so the code is no expression: its first lexeme
is `5.`, and its second one `upper`. -/
theorem whole_receiver_unread :
    wholeReceiver.tree? 1 ⟨1⟩ = some (.number "5") ∧
    Compiler.emit ⟨Registry.stock.grown (fun s => s) [], wholeReceiver, {}⟩ ⟨0⟩ =
      .ok (.expression "5.upper()" .functionCall) ∧
    Lexes "5.upper()".toList [.number "5.", .name "upper", .symbol "(", .symbol ")"] ∧
    ¬ ∃ ts t, Lexes "5.upper()".toList ts ∧ Forms .disjunction ts t := by
  have hlexes : Lexes "5.upper()".toList [.number "5.", .name "upper", .symbol "(", .symbol ")"] :=
    .lexeme (l := ['5', '.']) rfl (by decide) (.lexeme (l := ['u', 'p', 'p', 'e', 'r']) rfl (by decide)
      (.symbol (d := '(') (by simp) (.symbol (d := ')') (by simp) .nil)))
  refine ⟨rfl, emit_wholeReceiver (Registry.stock_grown_nil fun s => s), hlexes, ?_⟩
  rintro ⟨ts, t, hts, hforms⟩
  cases hts.det hlexes
  cases hforms.not_broken

end Compiler

end Blockwright
