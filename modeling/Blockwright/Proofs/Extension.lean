import Blockwright.Proofs.Reading
import Blockwright.Proofs.Registration
import Blockwright.Proofs.Walk

/-!
# Programs under a larger registry

A registry is only ever added to. The walk over a workspace looks types up and does nothing else with
the registry, and where a type is unknown it stops at once. So under a larger registry it comes to the
same result, a fault included, unless it stopped at a type that has been added (`Registry.Agree`).
This holds of one look-up and is kept by everything that a walk is made of, up to the program:
`Compiler.program_agree`. Main statement: `Registry.program_extended`.
-/

namespace Blockwright

namespace Registry

variable {r r' : Registry}

/-! ### Results that agree -/

/-- The second result is the first, unless this is a fault for a type that only the second registry
knows. -/
def Agree (r r' : Registry) {α : Type} (x y : Except Fault α) : Prop :=
  y = x ∨ ∃ t, x = .error (.unknownType t) ∧ r.lookup? t = none ∧ (r'.lookup? t).isSome

namespace Agree

variable {α β : Type} {x y : Except Fault α}

theorem refl (x : Except Fault α) : Agree r r' x x := .inl rfl

theorem bind {f g : α → Except Fault β} (h : Agree r r' x y) (hf : ∀ a, Agree r r' (f a) (g a)) :
    Agree r r' (x >>= f) (y >>= g) := by
  rcases h with rfl | ⟨t, rfl, hnew⟩
  · cases y with
    | error fault => exact refl _
    | ok a => exact hf a
  · exact .inr ⟨t, rfl, hnew⟩

theorem mapM {f g : α → Except Fault β} (h : ∀ a, Agree r r' (f a) (g a)) (xs : List α) :
    Agree r r' (xs.mapM f) (xs.mapM g) := by
  induction xs with
  | nil => exact refl _
  | cons a xs ih =>
    rw [List.mapM_cons, List.mapM_cons]
    exact (h a).bind fun _ => ih.bind fun _ => refl _

theorem ok (h : Agree r r' x y) {a : α} (hx : x = .ok a) : y = .ok a := by
  rcases h with rfl | ⟨t, hfault, -⟩
  · exact hx
  · cases hfault.symm.trans hx

end Agree

theorem Within.lookup_agree (h : r.Within r') (t : String) : Agree r r' (r.lookup t) (r'.lookup t) := by
  cases hd : r.lookup? t with
  | some d => rw [lookup, hd, lookup, h t d hd]; exact .refl _
  | none =>
    cases hd' : r'.lookup? t with
    | none => rw [lookup, hd, lookup, hd']; exact .refl _
    | some d' => rw [lookup, hd]; exact .inr ⟨t, rfl, hd, by rw [hd']; rfl⟩

end Registry

open Registry (Agree)

/-! ### The walk -/

section Site

variable {r r' : Registry} {emit emit' : BlockId → Except Fault Emission}
  {chain chain' : BlockId → Except Fault String}

theorem Block.read_agree (b : Block) (hemit : ∀ j, Agree r r' (emit j) (emit' j))
    (hchain : ∀ j, Agree r r' (chain j) (chain' j)) (slot : Reading × String) :
    Agree r r' (b.read emit chain slot) (b.read emit' chain' slot) := by
  obtain ⟨kind, name⟩ := slot
  cases kind with
  | value =>
    rw [Block.read, Block.read]
    cases b.inputs.get? name with
    | none => exact .refl _
    | some child => exact (hemit child).bind fun _ => .refl _
  | body =>
    rw [Block.read, Block.read]
    cases b.inputs.get? name with
    | none => exact .refl _
    | some head => exact (hchain head).bind fun _ => .refl _

theorem Site.rule_agree {site : Site} (hemit : ∀ j, Agree r r' (site.emit j) (emit j))
    (hchain : ∀ j, Agree r r' (site.chain j) (chain j)) (rule : Rule) :
    Agree r r' (site.rule rule) ((site.withCode emit chain).rule rule) := by
  have hsame : Site.Resembles rule site (site.withCode emit chain) := .of_fields rfl rfl rfl rfl
  rw [Site.rule_eq, Site.rule_eq]
  refine (Agree.mapM (site.block.read_agree hemit hchain) rule.reads).bind fun answers => ?_
  rw [hsame.write_eq]
  exact .refl _

end Site

namespace Compiler

variable {c : Compiler} {r' : Registry}

/-- The same workspace and options under another registry. -/
def withRegistry (c : Compiler) (r' : Registry) : Compiler := { c with registry := r' }

theorem chainFrom_agree {emit emit' : BlockId → Except Fault Emission}
    (hemit : ∀ j, Agree c.registry r' (emit j) (emit' j)) (fuel : Nat) (seen : List BlockId)
    (id : BlockId) : Agree c.registry r' (c.chainFrom emit fuel seen id)
      ((c.withRegistry r').chainFrom emit' fuel seen id) := by
  induction fuel generalizing seen id with
  | zero => exact .refl _
  | succ fuel ih =>
    rw [chainFrom, chainFrom]
    split
    · exact .refl _
    · refine (hemit id).bind fun emission => ?_
      refine (Agree.refl (c.workspace.get id)).bind fun b => ?_
      cases b.next with
      | none => exact .refl _
      | some next => exact (ih (id :: seen) next).bind fun _ => .refl _

theorem emitFrom_agree (h : c.registry.Within r') (fuel : Nat) (active : List BlockId)
    (id : BlockId) : Agree c.registry r' (c.emitFrom fuel active id)
      ((c.withRegistry r').emitFrom fuel active id) := by
  induction fuel generalizing active id with
  | zero => exact .refl _
  | succ fuel ih =>
    rw [emitFrom, emitFrom]
    split
    · exact .refl _
    · refine (Agree.refl (c.workspace.get id)).bind fun b => ?_
      -- nowhere else does the walk look at the registry
      refine (h.lookup_agree b.typeId).bind fun d => ?_
      exact Site.rule_agree (ih (id :: active))
        (chainFrom_agree (ih (id :: active)) c.workspace.capacity []) d.rule

theorem chain_agree (h : c.registry.Within r') (root : BlockId) :
    Agree c.registry r' (c.chain root) ((c.withRegistry r').chain root) :=
  chainFrom_agree (emitFrom_agree h c.workspace.capacity []) c.workspace.capacity [] root

theorem stackTexts_agree (h : c.registry.Within r') (roots : List BlockId) :
    Agree c.registry r' (c.stackTexts roots) ((c.withRegistry r').stackTexts roots) := by
  rw [stackTexts_eq_mapM, stackTexts_eq_mapM]
  exact .mapM (chain_agree h) roots

/-- A program under a larger registry is the same, or there was none for want of an added type. -/
theorem program_agree (h : c.registry.Within r') :
    Agree c.registry r' c.program (c.withRegistry r').program :=
  (stackTexts_agree h c.workspace.topBlocks).bind fun _ => .refl _

end Compiler

/-! ### Any additions -/

/-- A way to add to a registry: a single type of any kind, or what the registry grows by. -/
inductive Addition
  | definition (d : Definition)
  | growth (g : Growth)

namespace Registry

/-- Adds types, some of which may be registered already. -/
def add (digest : String → String) (r : Registry) : Addition → Registry
  | .definition d => r.register d
  | .growth g => r.grow digest g

/-- Adds types time after time. -/
def extended (digest : String → String) (r : Registry) (additions : List Addition) : Registry :=
  additions.foldl (add digest) r

theorem within_add (digest : String → String) (r : Registry) (a : Addition) :
    r.Within (r.add digest a) := by
  cases a with
  | definition d => exact within_register r d
  | growth g => exact within_grow digest r g

theorem within_extended (digest : String → String) (r : Registry) (additions : List Addition) :
    r.Within (r.extended digest additions) := by
  induction additions generalizing r with
  | nil => exact fun _ _ h => h
  | cons a additions ih => exact (within_add digest r a).trans (ih _)

/-- Additions to a registry, whatever they are, leave every program as it is. Where there is no
program the fault is left as it is too, unless it is for a type that has been added. -/
theorem program_extended (digest : String → String) (registry : Registry)
    (additions : List Addition) (ws : Workspace) (options : Options) :
    let extended := registry.extended digest additions
    let program := fun registry => Compiler.program { registry, workspace := ws, options }
    (∀ code, program registry = .ok code → program extended = .ok code) ∧
    ∀ fault, program registry = .error fault → program extended = .error fault ∨
      ∃ t, fault = .unknownType t ∧ registry.lookup? t = none ∧ (extended.lookup? t).isSome := by
  intro extended program
  have hagree : Agree registry extended (program registry) (program extended) :=
    Compiler.program_agree (c := ⟨registry, ws, options⟩) (within_extended digest registry additions)
  refine ⟨fun code h => hagree.ok h, fun fault h => ?_⟩
  rcases hagree with hsame | ⟨t, hfault, hnew⟩
  · exact .inl (hsame.trans h)
  · cases h.symm.trans hfault
    exact .inr ⟨t, rfl, hnew⟩

/-- The print of a number. -/
def printedNumber : Workspace :=
  { blocks :=
      #[some { id := ⟨0⟩, typeId := "python_print", inputs := Dict.empty.insert "VALUE" ⟨1⟩ },
        some { id := ⟨1⟩, typeId := "python_number", parent := some (⟨0⟩, .input "VALUE") }]
    top := [⟨0⟩] }

theorem program_printedNumber {registry : Registry}
    (h : registry = ⟨Catalogue.all, Catalogue.distinct_all⟩) :
    Compiler.program { registry, workspace := printedNumber, options := {} } =
      .ok "print(0)\n" := by
  subst h
  decide +kernel

/-- A new type of the same name, a function and a module do not get in the way of a print. -/
theorem program_extended_print :
    let registry := stock.grown (fun t => t) []
    let extended := registry.extended (fun t => t)
      [.definition ⟨Schema.statement "python_print", .constant "exit"⟩,
        .growth (.customBlock { name := "print" }),
        .growth (.modules {} [{ name := "python", functions := [{ name := "print" }] }])]
    let program := fun registry =>
      Compiler.program { registry, workspace := printedNumber, options := {} }
    program registry = .ok "print(0)\n" ∧ program extended = .ok "print(0)\n" := by
  intro registry extended program
  have hprogram : program registry = .ok "print(0)\n" :=
    program_printedNumber (stock_grown_nil fun t => t)
  exact ⟨hprogram, (program_extended (fun t => t) registry _ printedNumber {}).1 _ hprogram⟩

end Registry

end Blockwright
