import Blockwright.Proofs.PlainRules
import Mathlib.Data.List.Forall2

/-!
# The trees of blocks

The tree of a block is put together from the trees in its slots (`Construct`): operators, literals,
names, and calls of methods. The rule of a block writes the tree of the block if its slots carry code
of the trees in them (`Site.rule_writes`).
-/

namespace Blockwright

open Python

/-! ### The tree of a block -/

namespace Python

/-- How the tree of a block is put together from the trees in its slots. -/
inductive Construct
  | leaf (e : Tree)
  | unary (op : UnaryOp)
  | binary (op : BinaryOp)
  | subscript
  | method (m : MethodRule)

namespace Construct

/-- The rung of the code. -/
def rung : Construct → Precedence
  | leaf (.unary op _) => op.rung
  | leaf _ => .atomic
  | unary op => op.rung
  | binary op => op.rung
  | subscript => .member
  | method _ => .functionCall

def slots : Construct → List String
  | leaf _ => []
  | unary _ => ["VALUE"]
  | binary _ => ["A", "B"]
  | subscript => ["COLLECTION", "INDEX"]
  | method m => m.receiver :: m.args

def tree? (operand : String → Option Tree) : Construct → Option Tree
  | leaf e => some e
  | unary op => do return .unary op (← operand "VALUE")
  | binary op => do return .join op (← operand "A") (← operand "B")
  | subscript => do return .subscript (← operand "COLLECTION") (← operand "INDEX")
  | method m => do
    return .call (.member (← operand m.receiver) m.method) (← m.args.mapM operand)

end Construct

end Python

/-- The rule of a method. -/
def Rule.method? : Rule → Option MethodRule
  | .method m => some m
  | _ => none

namespace Block

def definition? (b : Block) : Option Definition :=
  Catalogue.all.find? fun d => d.typeId = b.typeId

/-- Whether a slot adds to the code: a block is plugged in, or the slot has a preset text. -/
def filled (b : Block) (schema : Schema) (slot : String) : Bool :=
  (b.inputs.get? slot).isSome || schema.presetText slot ≠ ""

/-- The method in a choice of the general text block. -/
def methodName (choice : String) : String := String.ofList choice.toList.dropLast.dropLast

/-- The method that a block calls, and the slots of its receiver and of its arguments. -/
def method? (b : Block) : Option MethodRule :=
  if b.typeId = "python_str_method" then
    let choice := b.chosen "METHOD" Catalogue.textMethodChoices
    some { receiver := "STRING", method := methodName choice, args := [] }
  else
    b.definition?.bind fun d => d.rule.method?.map fun m =>
      { m with args := m.args.filter (b.filled d.schema) }

def construct? (b : Block) : Option Construct :=
  let binary (options : List String) : Option Construct :=
    (BinaryOp.ofText? (b.chosen "OP" options)).map .binary
  match b.typeId with
  | "python_number" => some (.leaf (.ofLiteral (b.numberText "NUM")))
  | "python_variable_get" =>
    let name := (b.fields.get? "VAR").getD "x"
    if isName name then some (.leaf (.name name)) else none
  | "python_boolean" =>
    some (.leaf (.constant (if b.chosen "BOOL" ["True", "False"] = "True" then .true else .false)))
  | "python_none" => some (.leaf (.constant .none))
  | "python_arithmetic" => binary Catalogue.arithmeticOperators
  | "python_compare" => binary Catalogue.comparisonOperators
  | "python_logic" => binary ["and", "or"]
  | "python_negate" => some (.unary .negate)
  | "python_not" => some (.unary .not)
  | "python_await" => some (.unary .await)
  | "python_index" => some .subscript
  | _ => b.method?.map .method

/-- The tree that stands for a slot as long as it is empty. -/
def presetTree? (b : Block) (slot : String) : Option Tree :=
  b.definition?.bind fun d => Tree.ofPreset? (d.schema.presetText slot)

/-- Whether the code of the block is an expression. -/
def hasValue (b : Block) : Bool := b.definition?.any fun d => d.schema.shape.fitsValue

end Block

namespace Workspace

/-- The tree that the blocks at `id` stand for, if they are at most `depth` blocks deep and are
operators, literals, names and methods with a value. -/
def tree? (ws : Workspace) : Nat → BlockId → Option Tree
  | 0, _ => none
  | depth + 1, id => do
    let b ← ws.get? id
    if b.hasValue then
      let construct ← b.construct?
      construct.tree? fun slot => (b.inputs.get? slot).elim (b.presetTree? slot) (ws.tree? depth)
    else none

/-- The tree in a slot of a block. -/
def operand? (ws : Workspace) (depth : Nat) (b : Block) (slot : String) : Option Tree :=
  (b.inputs.get? slot).elim (b.presetTree? slot) (ws.tree? depth)

theorem tree?_succ {ws : Workspace} {depth : Nat} {id : BlockId} {e : Tree} :
    ws.tree? (depth + 1) id = some e ↔ ∃ b k, ws.get? id = some b ∧ b.hasValue = true ∧
      b.construct? = some k ∧ k.tree? (ws.operand? depth b) = some e := by
  constructor
  · intro h
    obtain ⟨b, hb, h⟩ := Option.bind_eq_some_iff.mp h
    split at h
    · next hvalue =>
      obtain ⟨k, hk, h⟩ := Option.bind_eq_some_iff.mp h
      exact ⟨b, k, hb, hvalue, hk, h⟩
    · cases h
  · rintro ⟨b, k, hb, hvalue, hk, h⟩
    refine Option.bind_eq_some_iff.mpr ⟨b, hb, ?_⟩
    rw [if_pos hvalue]
    exact Option.bind_eq_some_iff.mpr ⟨k, hk, h⟩

end Workspace

/-! ### Slots -/

namespace Python

theorem mapM_eq_some_iff {α β : Type} {f : α → Option β} {xs : List α} {ys : List β} :
    xs.mapM f = some ys ↔ List.Forall₂ (fun x y => f x = some y) xs ys := by
  induction xs generalizing ys with
  | nil => simp [eq_comm]
  | cons x xs ih =>
    rw [List.mapM_cons]
    cases ys with
    | nil =>
      cases f x <;> cases xs.mapM f <;> simp
    | cons y ys =>
      rw [List.forall₂_cons, ← ih]
      cases f x <;> cases xs.mapM f <;> simp

theorem exists_of_mapM {α β : Type} {f : α → Option β} {xs : List α} {ys : List β}
    (h : xs.mapM f = some ys) {x : α} (hx : x ∈ xs) : ∃ y ∈ ys, f x = some y := by
  induction mapM_eq_some_iff.mp h with
  | nil => cases hx
  | @cons a b xs ys hab hrest ih =>
    rcases List.mem_cons.mp hx with rfl | hx
    · exact ⟨b, List.mem_cons_self, hab⟩
    · obtain ⟨y, hy, hxy⟩ := ih (mapM_eq_some_iff.mpr hrest) hx
      exact ⟨y, List.mem_cons_of_mem _ hy, hxy⟩

theorem Tree.sizeOf_join (op : BinaryOp) (a b : Tree) :
    sizeOf (join op a b) = sizeOf (Tree.binary op a b) := by
  unfold join
  split
  · fun_induction chain op a b with
    | case1 a₁ a₂ b ih =>
      simp only [Tree.binary.sizeOf_spec] at ih ⊢
      omega
    | case2 op' a₁ a₂ b _ => rfl
    | case3 e b _ => rfl
  · rfl

namespace Construct

variable {f g : String → Option Tree} {k : Construct} {e : Tree}

theorem tree?_mono (hfg : ∀ slot e, f slot = some e → g slot = some e) (h : k.tree? f = some e) :
    k.tree? g = some e := by
  cases k with
  | leaf e => exact h
  | unary op =>
    obtain ⟨x, hx, h⟩ := Option.bind_eq_some_iff.mp h
    exact Option.bind_eq_some_iff.mpr ⟨x, hfg _ _ hx, h⟩
  | binary op =>
    obtain ⟨a, ha, h⟩ := Option.bind_eq_some_iff.mp h
    obtain ⟨b, hb, h⟩ := Option.bind_eq_some_iff.mp h
    exact Option.bind_eq_some_iff.mpr ⟨a, hfg _ _ ha, Option.bind_eq_some_iff.mpr ⟨b, hfg _ _ hb, h⟩⟩
  | subscript =>
    obtain ⟨a, ha, h⟩ := Option.bind_eq_some_iff.mp h
    obtain ⟨b, hb, h⟩ := Option.bind_eq_some_iff.mp h
    exact Option.bind_eq_some_iff.mpr ⟨a, hfg _ _ ha, Option.bind_eq_some_iff.mpr ⟨b, hfg _ _ hb, h⟩⟩
  | method m =>
    obtain ⟨a, ha, h⟩ := Option.bind_eq_some_iff.mp h
    obtain ⟨es, hes, h⟩ := Option.bind_eq_some_iff.mp h
    have hes' : m.args.mapM g = some es :=
      mapM_eq_some_iff.mpr ((mapM_eq_some_iff.mp hes).imp fun slot e => hfg slot e)
    exact Option.bind_eq_some_iff.mpr ⟨a, hfg _ _ ha, Option.bind_eq_some_iff.mpr ⟨es, hes', h⟩⟩

/-- What stands in a slot is smaller than the whole. -/
theorem sizeOf_lt_of_mem (h : k.tree? f = some e) {slot : String} (hslot : slot ∈ k.slots) :
    ∃ e', f slot = some e' ∧ sizeOf e' < sizeOf e := by
  cases k with
  | leaf e => cases hslot
  | unary op =>
    obtain ⟨x, hx, h⟩ := Option.bind_eq_some_iff.mp h
    cases h
    cases List.mem_singleton.mp hslot
    rw [Tree.unary.sizeOf_spec]
    exact ⟨x, hx, by omega⟩
  | binary op =>
    obtain ⟨a, ha, h⟩ := Option.bind_eq_some_iff.mp h
    obtain ⟨b, hb, h⟩ := Option.bind_eq_some_iff.mp h
    cases h
    rw [Tree.sizeOf_join, Tree.binary.sizeOf_spec]
    simp only [slots, List.mem_cons, List.not_mem_nil, or_false] at hslot
    rcases hslot with rfl | rfl
    · exact ⟨a, ha, by omega⟩
    · exact ⟨b, hb, by omega⟩
  | subscript =>
    obtain ⟨a, ha, h⟩ := Option.bind_eq_some_iff.mp h
    obtain ⟨b, hb, h⟩ := Option.bind_eq_some_iff.mp h
    cases h
    rw [Tree.subscript.sizeOf_spec]
    simp only [slots, List.mem_cons, List.not_mem_nil, or_false] at hslot
    rcases hslot with rfl | rfl
    · exact ⟨a, ha, by omega⟩
    · exact ⟨b, hb, by omega⟩
  | method m =>
    obtain ⟨a, ha, h⟩ := Option.bind_eq_some_iff.mp h
    obtain ⟨es, hes, h⟩ := Option.bind_eq_some_iff.mp h
    cases h
    rw [Tree.call.sizeOf_spec, Tree.member.sizeOf_spec]
    rcases List.mem_cons.mp hslot with rfl | hslot
    · exact ⟨a, ha, by omega⟩
    · obtain ⟨e', he', hslot⟩ := exists_of_mapM hes hslot
      have := List.sizeOf_lt_of_mem he'
      exact ⟨e', hslot, by omega⟩

theorem rung_of_isWhole (h : k.tree? f = some e) (hwhole : e.isWhole = true) : k.rung = .atomic := by
  cases k with
  | leaf e =>
    cases h
    cases e <;> first | rfl | cases hwhole
  | unary op =>
    obtain ⟨x, hx, h⟩ := Option.bind_eq_some_iff.mp h
    cases h
    cases hwhole
  | binary op =>
    obtain ⟨a, ha, h⟩ := Option.bind_eq_some_iff.mp h
    obtain ⟨b, hb, h⟩ := Option.bind_eq_some_iff.mp h
    obtain ⟨c, d, hjoin⟩ := Tree.join_cases op a b
    cases h
    rw [hjoin] at hwhole
    cases hwhole
  | subscript =>
    obtain ⟨a, ha, h⟩ := Option.bind_eq_some_iff.mp h
    obtain ⟨b, hb, h⟩ := Option.bind_eq_some_iff.mp h
    cases h
    cases hwhole
  | method m =>
    obtain ⟨a, ha, h⟩ := Option.bind_eq_some_iff.mp h
    obtain ⟨es, hes, h⟩ := Option.bind_eq_some_iff.mp h
    cases h
    cases hwhole

end Construct

end Python

/-! ### Numbers -/

theorem Python.Construct.rung_ofLiteral (text : String) : (Construct.leaf (.ofLiteral text)).rung =
    if text.toList.head? = some '-' then .unarySign else .atomic := by
  unfold Tree.ofLiteral
  split
  · next heq => rw [heq]; rfl
  · next hne =>
    rw [if_neg]
    · rfl
    · intro hhead
      obtain ⟨cs, hcs⟩ := List.head?_eq_some_iff.mp hhead
      exact hne cs hcs

/-- The text of a number stands on the rung of a sign if it has one. -/
theorem Python.Writes.literal {text : String} {cs : List Char} (hcs : isNumeral cs = true)
    (h : text = String.ofList cs ∨ text = "-" ++ String.ofList cs) :
    Writes (Construct.leaf (.ofLiteral text)).rung.phrase text (.ofLiteral text) := by
  rcases h with rfl | rfl
  · have htree : Tree.ofLiteral (String.ofList cs) = .number (String.ofList cs) := by
      unfold Tree.ofLiteral
      split
      · next heq =>
        rw [String.toList_ofList] at heq
        exact absurd (heq ▸ hcs) (by simp [isNumeral])
      · rw [String.ofList_toList]
    rw [htree]
    exact .number hcs
  · have htree : Tree.ofLiteral ("-" ++ String.ofList cs) =
        .unary .negate (.number (String.ofList cs)) := by
      have hlist : ("-" ++ String.ofList cs).toList = '-' :: cs := by simp
      unfold Tree.ofLiteral
      rw [hlist]
      rfl
    rw [htree]
    exact .unary .negate ((Writes.number hcs).mono (Nat.zero_le _))

theorem Python.Writes.numberText (b : Block) (name : String) :
    Writes (Construct.leaf (.ofLiteral (b.numberText name))).rung.phrase (b.numberText name)
      (.ofLiteral (b.numberText name)) := by
  rcases b.numberText_cases name with h | ⟨x, h⟩
  · rw [h]
    exact .literal (show isNumeral ['0'] = true by decide) (.inl rfl)
  · obtain ⟨cs, hcs, hx⟩ := literal_cases x
    rw [h]
    exact .literal hcs hx

/-! ### Types of blocks with a tree -/

/-- Methods have names that a number does not swallow, and only a single argument can be left out. -/
theorem Catalogue.method_of_mem_all {d : Definition} (hd : d ∈ all) {m : MethodRule}
    (hm : d.rule.method? = some m) : isMethod m.method = true ∧
      (m.args.length ≤ 1 ∨ ∀ slot ∈ m.args, d.schema.presetText slot ≠ "") := by
  have hall : all.all (fun d => d.rule.method?.all fun m => isMethod m.method &&
      (m.args.length ≤ 1 || m.args.all fun slot => d.schema.presetText slot ≠ "")) = true := by
    decide +kernel
  have := List.all_eq_true.mp hall d hd
  rw [hm] at this
  simpa using this

theorem Catalogue.methodName_of_mem : ∀ choice ∈ textMethodChoices,
    choice = Block.methodName choice ++ "()" ∧ isMethod (Block.methodName choice) = true := by
  decide +kernel

theorem Catalogue.find?_textMethod : (all.find? fun d => d.typeId = "python_str_method").map
    (fun d => (d.rule, d.schema.slots, d.schema.shape)) =
      some (.template (.expression .functionCall [.value "STRING" .member, .code ".",
        .field "METHOD"]), [⟨"STRING", .value, some "''"⟩,
        ⟨"METHOD", .literal (.choice textMethodChoices), some (textMethodChoices.headD "")⟩],
        .expression) := by
  decide +kernel

theorem Block.definition?_eq (b : Block) : b.definition? = Registry.stock.lookup? b.typeId :=
  (Registry.lookup?_stock b.typeId).symm

theorem Block.isMethod_of_method? {b : Block} {m : MethodRule} (h : b.method? = some m) :
    isMethod m.method = true := by
  unfold method? at h
  split at h
  · cases h
    exact (Catalogue.methodName_of_mem _ (b.chosen_mem "METHOD" (by decide))).2
  · obtain ⟨d, hd, h⟩ := Option.bind_eq_some_iff.mp h
    obtain ⟨m', hm', rfl⟩ := Option.map_eq_some_iff.mp h
    exact (Catalogue.method_of_mem_all (List.mem_of_find?_eq_some hd) hm').1

theorem Block.construct?_cases {b : Block} {k : Construct} (h : b.construct? = some k) :
    b.typeId ∈ Catalogue.plainTypes ∨ ∃ m, b.method? = some m ∧ k = .method m := by
  unfold construct? at h
  split at h
  case h_12 =>
    obtain ⟨m, hm, rfl⟩ := Option.map_eq_some_iff.mp h
    exact .inr ⟨m, hm, rfl⟩
  all_goals
    next htype => exact .inl (by rw [htype]; decide)

/-- The blocks with a tree are of stock types. -/
theorem Block.exists_of_construct? {b : Block} {k : Construct} (h : b.construct? = some k) :
    ∃ d, Registry.stock.lookup? b.typeId = some d := by
  rcases construct?_cases h with hplain | ⟨m, hm, -⟩
  · exact Registry.exists_plain hplain
  · unfold method? at hm
    split at hm
    · next htype =>
      obtain ⟨d, hd, -⟩ := Option.map_eq_some_iff.mp Catalogue.find?_textMethod
      exact ⟨d, by rw [Registry.lookup?_stock, htype, hd]⟩
    · obtain ⟨d, hd, -⟩ := Option.bind_eq_some_iff.mp hm
      exact ⟨d, b.definition?_eq.symm.trans hd⟩

/-- Operators, literals and names have a value and no rule of a method. -/
theorem Registry.plain_of_lookup? {t : String} (ht : t ∈ Catalogue.plainTypes) {d : Definition}
    (hd : stock.lookup? t = some d) :
    d.rule.method? = none ∧ d.schema.shape.fitsValue = true := by
  have hmethod : ∀ x ∈ Catalogue.plainEntries, x.rule.method? = none := by decide
  obtain ⟨x, hx, rfl⟩ := List.mem_map.mp ht
  obtain ⟨hrule, -, hshape⟩ := stock_plain hx hd
  exact ⟨by rw [hrule, hmethod x hx], hshape⟩

theorem Block.method?_eq_none {b : Block} (h : b.typeId ∈ Catalogue.plainTypes) :
    b.method? = none := by
  have hne : b.typeId ≠ "python_str_method" := by
    intro htype
    rw [htype] at h
    revert h
    decide
  obtain ⟨d, hd⟩ := Registry.exists_plain h
  rw [method?, if_neg hne, definition?_eq, hd, Option.bind_some, (Registry.plain_of_lookup? h hd).1]
  rfl

theorem Block.construct?_of_method? {b : Block} {m : MethodRule} (h : b.method? = some m) :
    b.construct? = some (.method m) := by
  unfold construct?
  split
  case h_12 =>
    rw [h]
    rfl
  all_goals
    next htype =>
      rw [method?_eq_none (by rw [htype]; decide)] at h
      cases h

/-! ### Rules -/

namespace Site

variable {site : Site} {d : Definition}

/-- What stands in the slot is written as the tree. -/
def Carries (site : Site) (slot : String) (e : Tree) : Prop :=
  match site.block.inputs.get? slot with
  | none => Writes .atom (site.schema.presetText slot) e
  | some c => ∃ code produced, site.emit c = .ok (.expression code produced) ∧
      Writes produced.phrase code e ∧ (e.isWhole = true → produced = .atomic)

theorem Carries.value {slot : String} {e : Tree} (h : site.Carries slot e) (required : Precedence)
    (hreq : required ≠ .await) :
    ∃ code, site.value slot required = .ok code ∧ Writes required.phrase code e := by
  unfold Carries at h
  split at h
  · next hnone =>
    refine ⟨site.schema.presetText slot, ?_, h.mono (Nat.zero_le _)⟩
    simp [Site.value, value?, hnone, bind, Except.bind, pure, Except.pure]
  · next c hsome =>
    obtain ⟨code, produced, hemit, hwrites, hatomic⟩ := h
    refine ⟨Precedence.wrap code produced required, ?_, hwrites.wrap hatomic hreq⟩
    simp [Site.value, value?, hsome, hemit, bind, Except.bind, pure, Except.pure]

theorem Carries.values {slots : List String} {es : List Tree} (h : List.Forall₂ site.Carries slots es) :
    ∃ args : List (String × Tree), site.values slots = .ok (args.map Prod.fst) ∧
      args.map Prod.snd = es ∧ ∀ y ∈ args, Writes .disjunction y.1 y.2 := by
  induction h with
  | nil => exact ⟨[], rfl, rfl, by simp⟩
  | @cons slot e slots es hslot _ ih =>
    obtain ⟨code, hcode, hwrites⟩ := hslot.value .loosest (by decide)
    obtain ⟨args, hargs, rfl, hall⟩ := ih
    refine ⟨(code, e) :: args, ?_, rfl, List.forall_mem_cons.mpr ⟨hwrites, hall⟩⟩
    simp [Site.values, hcode, hargs, bind, Except.bind, pure, Except.pure]

/-- A slot that adds nothing to the code can be left out if there is no other one. -/
theorem values_filled {slots codes : List String}
    (hblank : slots.length ≤ 1 ∨ ∀ slot ∈ slots, site.schema.presetText slot ≠ "")
    (h : site.values (slots.filter (site.block.filled site.schema)) = .ok codes) :
    ∃ all, site.values slots = .ok all ∧ Text.joinWith ", " all = Text.joinWith ", " codes := by
  cases hall : slots.all (site.block.filled site.schema) with
  | true =>
    rw [List.filter_eq_self.mpr (List.all_eq_true.mp hall)] at h
    exact ⟨codes, h, rfl⟩
  | false =>
    obtain ⟨slot, hslot, hempty⟩ := List.all_eq_false.mp hall
    simp only [Block.filled, Bool.or_eq_true, decide_eq_true_eq, not_or, Decidable.not_not,
      Option.isSome_iff_ne_none] at hempty
    have hone : slots = [slot] := by
      rcases hblank with hlength | hblank
      · obtain ⟨rest, rfl⟩ : ∃ rest, slots = slot :: rest := by
          cases slots with
          | nil => cases hslot
          | cons x rest =>
            cases rest with
            | nil => exact ⟨[], by rw [List.mem_singleton.mp hslot]⟩
            | cons y rest => simp at hlength
        simpa using hlength
      · exact absurd hempty.2 (hblank slot hslot)
    subst hone
    refine ⟨[""], ?_, ?_⟩
    · simp [values, value, value?, hempty, bind, Except.bind, pure, Except.pure]
    · have hnone : [slot].filter (site.block.filled site.schema) = [] := by
        simp [Block.filled, hempty]
      rw [hnone] at h
      cases h
      rfl

/-- The rule of a method block. -/
theorem rule_method (hd : Registry.stock.lookup? site.block.typeId = some d)
    (hschema : site.schema = d.schema) {m : MethodRule} (hm : site.block.method? = some m)
    {receiver : String} (hreceiver : site.value m.receiver .member = .ok receiver)
    {codes : List String} (hcodes : site.values m.args = .ok codes) :
    site.rule d.rule = .ok (.ofShape d.schema.shape
      (receiver ++ "." ++ m.method ++ "(" ++ Text.joinWith ", " codes ++ ")") .functionCall) := by
  unfold Block.method? at hm
  split at hm
  · next htype =>
    have hfind := Catalogue.find?_textMethod
    rw [← Registry.lookup?_stock, ← htype, hd] at hfind
    obtain ⟨hrule, hslots, hshape⟩ : _ ∧ _ ∧ _ := by simpa using hfind
    have hfield : site.field "METHOD" = site.block.chosen "METHOD" Catalogue.textMethodChoices :=
      field_choice (by simp [Schema.slot?, hschema, hslots])
    have hchoice := (Catalogue.methodName_of_mem _ (site.block.chosen_mem "METHOD" (by decide))).1
    cases hm
    cases hcodes
    generalize site.block.chosen "METHOD" Catalogue.textMethodChoices = choice at hfield hchoice ⊢
    generalize Block.methodName choice = name at hchoice ⊢
    rw [hrule, hshape, rule]
    simp [template, pieces, piece, hreceiver, hfield, hchoice, bind, Except.bind, pure, Except.pure,
      Emission.ofShape, String.append_assoc]
  · obtain ⟨d', hd', hm⟩ := Option.bind_eq_some_iff.mp hm
    obtain ⟨m', hm', rfl⟩ := Option.map_eq_some_iff.mp hm
    obtain rfl : d' = d := Option.some.inj (hd'.symm.trans (site.block.definition?_eq.trans hd))
    have hrule : d'.rule = .method m' := by
      cases hrule : d'.rule <;> simp [hrule, Rule.method?] at hm' ⊢
      exact hm'
    obtain ⟨-, hblank⟩ := Catalogue.method_of_mem_all (List.mem_of_find?_eq_some hd') hm'
    rw [← hschema] at hblank hcodes
    obtain ⟨all, hall, hjoin⟩ := values_filled hblank hcodes
    rw [hrule, rule, hreceiver, hall, ← hjoin, hschema]
    rfl

/-! ### Code of blocks -/

variable {operand : String → Option Tree} {k : Construct} {e : Tree}

/-- What stands in the slots is written as the trees in them. -/
def Provides (site : Site) (operand : String → Option Tree) (k : Construct) : Prop :=
  ∀ slot ∈ k.slots, ∀ e, operand slot = some e → site.Carries slot e

theorem binary_writes {t preset : String} {family : OperatorFamily} {options : List String}
    (hentry : BinaryEntry t preset family options) (hd : Registry.stock.lookup? t = some d)
    (hschema : site.schema = d.schema)
    (hk : (BinaryOp.ofText? (site.block.chosen "OP" options)).map Construct.binary = some k)
    (he : k.tree? operand = some e) (h : site.Provides operand k) :
    ∃ code, site.rule d.rule = .ok (.expression code k.rung) ∧ Writes k.rung.phrase code e := by
  obtain ⟨op, hop, rfl⟩ := Option.map_eq_some_iff.mp hk
  obtain ⟨a, ha, he⟩ := Option.bind_eq_some_iff.mp he
  obtain ⟨b, hb, he⟩ := Option.bind_eq_some_iff.mp he
  cases he
  obtain ⟨ca, hca, hwritesA⟩ := (h "A" (by simp [Construct.slots]) a ha).value _ op.operands_ne_await.1
  obtain ⟨cb, hcb, hwritesB⟩ := (h "B" (by simp [Construct.slots]) b hb).value _ op.operands_ne_await.2
  exact ⟨_, rule_binary hentry hd hschema hop hca hcb, hwritesA.binary hwritesB⟩

theorem unary_writes {t preset : String} {op : UnaryOp}
    (hentry : Catalogue.unaryEntry t preset op ∈ Catalogue.plainEntries)
    (hd : Registry.stock.lookup? t = some d) (he : (Construct.unary op).tree? operand = some e)
    (h : site.Provides operand (.unary op)) :
    ∃ code, site.rule d.rule = .ok (.expression code op.rung) ∧ Writes op.rung.phrase code e := by
  obtain ⟨x, hx, he⟩ := Option.bind_eq_some_iff.mp he
  cases he
  obtain ⟨code, hcode, hwrites⟩ :=
    (h "VALUE" (by simp [Construct.slots]) x hx).value _ op.operandRung_ne_await
  rw [op.phrase_operandRung] at hwrites
  exact ⟨_, rule_unary hentry hd hcode, op.phrase_rung ▸ hwrites.unary op⟩

theorem subscript_writes (hd : Registry.stock.lookup? "python_index" = some d)
    (he : Construct.subscript.tree? operand = some e) (h : site.Provides operand .subscript) :
    ∃ code, site.rule d.rule = .ok (.expression code .member) ∧ Writes .primary code e := by
  obtain ⟨c, hc, he⟩ := Option.bind_eq_some_iff.mp he
  obtain ⟨i, hi, he⟩ := Option.bind_eq_some_iff.mp he
  cases he
  obtain ⟨cc, hcc, hwritesC⟩ :=
    (h "COLLECTION" (by simp [Construct.slots]) c hc).value .member (by decide)
  obtain ⟨ci, hci, hwritesI⟩ := (h "INDEX" (by simp [Construct.slots]) i hi).value .loosest (by decide)
  exact ⟨_, rule_index hd hcc hci, hwritesC.subscript hwritesI⟩

theorem method_writes (hd : Registry.stock.lookup? site.block.typeId = some d)
    (hschema : site.schema = d.schema) {m : MethodRule} (hm : site.block.method? = some m)
    (he : (Construct.method m).tree? operand = some e) (h : site.Provides operand (.method m)) :
    ∃ code, site.rule d.rule = .ok (.ofShape d.schema.shape code .functionCall) ∧
      Writes .primary code e := by
  obtain ⟨r, hr, he⟩ := Option.bind_eq_some_iff.mp he
  obtain ⟨es, hes, he⟩ := Option.bind_eq_some_iff.mp he
  cases he
  obtain ⟨receiver, hreceiver, hwrites⟩ :=
    (h m.receiver List.mem_cons_self r hr).value .member (by decide)
  have hcarries : List.Forall₂ site.Carries m.args es :=
    ((List.forall₂_and_left m.args es).mpr ⟨fun _ hslot => hslot, mapM_eq_some_iff.mp hes⟩).imp
      fun slot e hslot => h slot (List.mem_cons_of_mem _ hslot.1) e hslot.2
  obtain ⟨args, hargs, rfl, hall⟩ := Carries.values hcarries
  exact ⟨_, rule_method hd hschema hm hreceiver hargs,
    hwrites.method (Block.isMethod_of_method? hm) hall⟩

theorem plain_writes (hplain : site.block.typeId ∈ Catalogue.plainTypes)
    (hd : Registry.stock.lookup? site.block.typeId = some d) (hschema : site.schema = d.schema)
    (hk : site.block.construct? = some k) (he : k.tree? operand = some e)
    (h : site.Provides operand k) :
    ∃ code, site.rule d.rule = .ok (.expression code k.rung) ∧ Writes k.rung.phrase code e := by
  unfold Block.construct? at hk
  split at hk
  case h_1 htype =>
    cases hk
    cases he
    rw [Construct.rung_ofLiteral]
    exact ⟨_, rule_number (htype ▸ hd) hschema,
      Construct.rung_ofLiteral _ ▸ .numberText site.block "NUM"⟩
  case h_2 htype =>
    dsimp only at hk
    split at hk
    · next hname =>
      cases hk
      cases he
      exact ⟨_, rule_name (htype ▸ hd) hschema, .name hname⟩
    · cases hk
  case h_3 htype =>
    cases hk
    cases he
    exact ⟨_, rule_boolean (htype ▸ hd) hschema, .constant _⟩
  case h_4 htype =>
    cases hk
    cases he
    exact ⟨_, rule_none (htype ▸ hd) hschema, .constant _⟩
  case h_5 htype => exact binary_writes arithmetic_entry (htype ▸ hd) hschema hk he h
  case h_6 htype => exact binary_writes compare_entry (htype ▸ hd) hschema hk he h
  case h_7 htype => exact binary_writes logic_entry (htype ▸ hd) hschema hk he h
  case h_8 htype =>
    cases hk
    exact unary_writes negate_entry (htype ▸ hd) he h
  case h_9 htype =>
    cases hk
    exact unary_writes not_entry (htype ▸ hd) he h
  case h_10 htype =>
    cases hk
    exact unary_writes await_entry (htype ▸ hd) he h
  case h_11 htype =>
    cases hk
    exact subscript_writes (htype ▸ hd) he h
  case h_12 =>
    rw [Block.method?_eq_none hplain] at hk
    cases hk

/-- The rule of a block writes the tree of the block, if its slots carry the trees in them. -/
theorem rule_writes (hd : Registry.stock.lookup? site.block.typeId = some d)
    (hschema : site.schema = d.schema) (hk : site.block.construct? = some k)
    (he : k.tree? operand = some e) (h : site.Provides operand k) :
    ∃ code, site.rule d.rule = .ok (.ofShape d.schema.shape code k.rung) ∧
      Writes k.rung.phrase code e := by
  rcases Block.construct?_cases hk with hplain | ⟨m, hm, rfl⟩
  · obtain ⟨code, hcode, hwrites⟩ := plain_writes hplain hd hschema hk he h
    obtain ⟨-, hshape⟩ := Registry.plain_of_lookup? hplain hd
    exact ⟨code, by rw [Emission.ofShape_of_fitsValue hshape, hcode], hwrites⟩
  · exact method_writes hd hschema hm he h

end Site

end Blockwright
