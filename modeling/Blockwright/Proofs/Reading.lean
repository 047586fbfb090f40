import Blockwright.Emission

/-!
# What rules read

A rule reads slots of its block, one after the other, and stops at the first fault; then it writes.
`Rule.reads` lists the slots, `Block.read` gives the answer of one, and `Site.write` is what the
rule makes of the answers. `Site.rule_eq` says that the code of a block comes about in just these
two steps, so nothing but the answers and the texts of fields goes into it.
-/

namespace Blockwright

theorem bind_eq_ok_iff {α β ε : Type} {x : Except ε α} {f : α → Except ε β} {y : β} :
    x >>= f = .ok y ↔ ∃ a, x = .ok a ∧ f a = .ok y := by
  cases x with
  | error fault => exact ⟨nofun, nofun⟩
  | ok a =>
    constructor
    · exact fun h => ⟨a, rfl, h⟩
    · rintro ⟨_, ⟨⟩, h⟩
      exact h

/-- The ways to read a slot: for the code of a block, or for that of the chain it heads. -/
inductive Reading
  | value | body
deriving DecidableEq

/-- What a slot holds, as a rule sees it. -/
inductive Answer
  | empty
  | value (code : String) (produced : Precedence)
  | body (code : String)

namespace Answer

def code? (required : Precedence) : Answer → Option String
  | value code produced => some (Precedence.wrap code produced required)
  | _ => none

def bodyText : Answer → String
  | body code => code
  | _ => ""

end Answer

def Piece.read? : Piece → Option (Reading × String)
  | .value slot _ => some (.value, slot)
  | .clause _ slot => some (.value, slot)
  | .suite slot => some (.body, slot)
  | _ => none

def Template.reads : Template → List (Reading × String)
  | .statement ps => ps.filterMap Piece.read?
  | .expression _ ps => ps.filterMap Piece.read?
  | .number _ => []
  | .binary _ => [(.value, "A"), (.value, "B")]

/-- The slots that a rule reads, in its order. -/
def Rule.reads : Rule → List (Reading × String)
  | .template t => t.reads
  | .call c => (List.range c.params.length).map fun index => (.value, socketSlot index)
  | .method m => (m.receiver :: m.args).map fun slot => (.value, slot)
  | .constant _ => []

/-- Reads a slot. A block in a slot that is read for a value must have one. -/
def Block.read {m : Type → Type} [Monad m] [MonadExcept Fault m] (b : Block)
    (emit : BlockId → m Emission) (chain : BlockId → m String) : Reading × String → m Answer
  | (.value, slot) =>
    match b.inputs.get? slot with
    | none => pure .empty
    | some child => do
      match ← emit child with
      | .expression code produced => pure (.value code produced)
      | .statement _ => throw (.mismatch b.id child slot .noOutput)
  | (.body, slot) =>
    match b.inputs.get? slot with
    | none => pure .empty
    | some head => do return .body (← chain head)

namespace Site

variable (site : Site)

/-- What a piece writes that reads no slot. -/
def fixed (p : Piece) : String :=
  match site.piece p with
  | .ok text => text
  | .error _ => ""

def writePiece : Piece → Answer → String
  | .value slot required, answer => (answer.code? required).getD (site.schema.presetText slot)
  | .clause lead _, answer =>
    match answer.code? .loosest with
    | some code => lead ++ code
    | none => ""
  | .suite _, answer =>
    if Text.isBlank answer.bodyText then site.options.indent ++ site.options.placeholder ++ "\n"
    else Text.indentLines site.options.indent answer.bodyText
  | p, _ => site.fixed p

/-- Each piece that reads a slot takes the next answer. -/
def writePieces : List Piece → List Answer → String
  | [], _ => ""
  | p :: ps, answers =>
    match p.read? with
    | none => site.fixed p ++ writePieces ps answers
    | some _ => site.writePiece p (answers.headD .empty) ++ writePieces ps answers.tail

def writeTemplate : Template → List Answer → Emission
  | .statement ps, answers => .statement (site.writePieces ps answers)
  | .expression produced ps, answers => .expression (site.writePieces ps answers) produced
  | .number name, _ =>
    let text := site.field name
    .expression text (if text.toList.head? = some '-' then .unarySign else .atomic)
  | .binary family, answers =>
    let operator := site.field "OP"
    let produced := family.precedence operator
    let a := ((answers.headD .empty).code? produced.operands.1).getD (site.schema.presetText "A")
    let b := ((answers.tail.headD .empty).code? produced.operands.2).getD
      (site.schema.presetText "B")
    .expression (a ++ " " ++ operator ++ " " ++ b) produced

def writeArguments (call : CallRule) (sockets : List (Option String)) : String :=
  if site.block.mode = .expanded ∧ call.params ≠ [] then
    Arguments.compact (overlay sockets (call.params.mapIdx site.expandedArgument))
  else if !call.hasArgField then ""
  else if sockets.all Option.isNone then site.compactArguments call
  else
    Arguments.compact (overlay sockets (Arguments.expand (site.compactArguments call) call.params))

/-- The code that a rule makes of the answers. -/
def write : Rule → List Answer → Emission
  | .template t, answers => site.writeTemplate t answers
  | .call call, answers =>
    let args := site.writeArguments call (answers.map (Answer.code? .loosest))
    .ofShape site.schema.shape (call.callee ++ "(" ++ args ++ ")") .functionCall
  | .method m, answers =>
    let receiver := ((answers.headD .empty).code? .member).getD (site.schema.presetText m.receiver)
    let args := List.zipWith
      (fun slot answer => (answer.code? .loosest).getD (site.schema.presetText slot)) m.args
      answers.tail
    let code := receiver ++ "." ++ m.method ++ "(" ++ Text.joinWith ", " args ++ ")"
    .ofShape site.schema.shape code .functionCall
  | .constant text, _ => .ofShape site.schema.shape text .atomic

/-- Reads a slot of the block. -/
def read (slot : Reading × String) : Except Fault Answer :=
  site.block.read site.emit site.chain slot

/-! ### Reading comes before writing -/

theorem value?_eq (slot : String) (required : Precedence) :
    site.value? slot required = (do return (← site.read (.value, slot)).code? required) := by
  simp only [value?, read, Block.read]
  cases site.block.inputs.get? slot with
  | none => rfl
  | some child =>
    dsimp only
    cases site.emit child with
    | error fault => rfl
    | ok e => cases e <;> rfl

theorem value_eq (slot : String) (required : Precedence) :
    site.value slot required = (do
      return ((← site.read (.value, slot)).code? required).getD (site.schema.presetText slot)) := by
  rw [value, value?_eq]
  cases site.read (.value, slot) <;> rfl

theorem suite_eq (slot : String) :
    site.suite slot = (do return site.writePiece (.suite slot) (← site.read (.body, slot))) := by
  have hwrite : ∀ body, (if Text.isBlank body then
        pure (site.options.indent ++ site.options.placeholder ++ "\n")
      else pure (Text.indentLines site.options.indent body) : Except Fault String) =
      pure (site.writePiece (.suite slot) (.body body)) := by
    intro body
    rw [writePiece, Answer.bodyText]
    split <;> rfl
  simp only [suite, read, Block.read]
  cases site.block.inputs.get? slot with
  | none => exact hwrite ""
  | some head =>
    dsimp only
    cases site.chain head with
    | error fault => rfl
    | ok body => exact hwrite body

theorem piece_eq_fixed {p : Piece} (h : p.read? = none) : site.piece p = .ok (site.fixed p) := by
  cases p with
  | value slot required => cases h
  | clause lead slot => cases h
  | suite slot => cases h
  | _ => rfl

theorem piece_eq_read {p : Piece} {slot : Reading × String} (h : p.read? = some slot) :
    site.piece p = (do return site.writePiece p (← site.read slot)) := by
  cases p with
  | value name required => cases h; exact site.value_eq name required
  | suite name => cases h; exact site.suite_eq name
  | clause lead name =>
    cases h
    rw [piece, value?_eq]
    cases site.read (.value, name) with
    | error fault => rfl
    | ok answer =>
      simp only [bind, Except.bind, pure, Except.pure, writePiece]
      cases answer.code? .loosest <;> rfl
  | _ => cases h

theorem pieces_eq (ps : List Piece) :
    site.pieces ps =
      (do return site.writePieces ps (← (ps.filterMap Piece.read?).mapM site.read)) := by
  induction ps with
  | nil => rfl
  | cons p ps ih =>
    rw [pieces, ih]
    cases hp : p.read? with
    | none =>
      rw [piece_eq_fixed site hp, List.filterMap_cons_none hp]
      cases (ps.filterMap Piece.read?).mapM site.read with
      | error fault => rfl
      | ok answers =>
        simp only [bind, Except.bind, pure, Except.pure, writePieces, hp]
    | some slot =>
      rw [piece_eq_read site hp, List.filterMap_cons_some hp, List.mapM_cons]
      cases site.read slot with
      | error fault => rfl
      | ok answer =>
        cases (ps.filterMap Piece.read?).mapM site.read with
        | error fault => rfl
        | ok answers =>
          simp only [bind, Except.bind, pure, Except.pure, writePieces, hp, List.headD_cons,
            List.tail_cons]

theorem template_eq (t : Template) :
    site.template t = (do return site.writeTemplate t (← t.reads.mapM site.read)) := by
  cases t with
  | statement ps =>
    rw [template, pieces_eq, Template.reads]
    cases (ps.filterMap Piece.read?).mapM site.read <;> rfl
  | expression produced ps =>
    rw [template, pieces_eq, Template.reads]
    cases (ps.filterMap Piece.read?).mapM site.read <;> rfl
  | number name => rfl
  | binary family =>
    rw [template, Template.reads]
    simp only [value_eq, List.mapM_cons, List.mapM_nil]
    cases site.read (.value, "A") with
    | error fault => rfl
    | ok a => cases site.read (.value, "B") <;> rfl

theorem values?_eq (slots : List String) :
    site.values? slots = (do
      return (← (slots.map fun slot => (Reading.value, slot)).mapM site.read).map
        (Answer.code? .loosest)) := by
  induction slots with
  | nil => rfl
  | cons slot slots ih =>
    rw [values?, ih, value?_eq, List.map_cons, List.mapM_cons]
    cases site.read (.value, slot) with
    | error fault => rfl
    | ok answer => cases (slots.map fun slot => (Reading.value, slot)).mapM site.read <;> rfl

theorem values_eq (slots : List String) :
    site.values slots = (do
      return List.zipWith
        (fun slot answer => (answer.code? .loosest).getD (site.schema.presetText slot)) slots
        (← (slots.map fun slot => (Reading.value, slot)).mapM site.read)) := by
  induction slots with
  | nil => rfl
  | cons slot slots ih =>
    rw [values, ih, value_eq, List.map_cons, List.mapM_cons]
    cases site.read (.value, slot) with
    | error fault => rfl
    | ok answer => cases (slots.map fun slot => (Reading.value, slot)).mapM site.read <;> rfl

theorem arguments_eq (call : CallRule) :
    site.arguments call = (do
      return site.writeArguments call
        (← site.values? ((List.range call.params.length).map socketSlot))) := by
  rw [arguments]
  congr 1
  funext sockets
  rw [writeArguments]
  split
  · rfl
  · split
    · rfl
    · dsimp only
      split <;> rfl

/-- A rule reads its slots, one after the other, and writes what it makes of the answers. -/
theorem rule_eq (r : Rule) :
    site.rule r = (do return site.write r (← r.reads.mapM site.read)) := by
  cases r with
  | template t =>
    rw [rule, template_eq]
    rfl
  | call call =>
    have hreads : (Rule.call call).reads =
        ((List.range call.params.length).map socketSlot).map fun slot => (Reading.value, slot) := by
      rw [List.map_map]
      rfl
    rw [rule, arguments_eq, values?_eq, hreads]
    cases (((List.range call.params.length).map socketSlot).map
      fun slot => (Reading.value, slot)).mapM site.read <;> rfl
  | method m =>
    rw [rule, value_eq, values_eq, Rule.reads, List.map_cons, List.mapM_cons]
    cases site.read (.value, m.receiver) with
    | error fault => rfl
    | ok answer => cases (m.args.map fun slot => (Reading.value, slot)).mapM site.read <;> rfl
  | constant text => rfl

/-! ### What writing looks at -/

/-- The sites have the same texts where a rule looks at them. -/
structure Resembles (r : Rule) (site site' : Site) : Prop where
  options : site.options = site'.options
  schema : site.schema = site'.schema
  mode : site.block.mode = site'.block.mode
  texts : match r with
    | .template (.statement ps) => ∀ p ∈ ps, p.read? = none → site.fixed p = site'.fixed p
    | .template (.expression _ ps) => ∀ p ∈ ps, p.read? = none → site.fixed p = site'.fixed p
    | .template (.number name) => site.field name = site'.field name
    | .template (.binary _) => site.field "OP" = site'.field "OP"
    | .call c => site.compactArguments c = site'.compactArguments c ∧
        site.expandedArgument = site'.expandedArgument
    | _ => True

section Resembling

variable {site site' : Site}

theorem writePiece_congr {p : Piece} {slot : Reading × String}
    (hoptions : site.options = site'.options) (hschema : site.schema = site'.schema) (hp : p.read? = some slot) (answer : Answer) :
    site.writePiece p answer = site'.writePiece p answer := by
  cases p with
  | value slot required => rw [writePiece, writePiece, hschema]
  | clause lead slot => rfl
  | suite slot => rw [writePiece, writePiece, hoptions]
  | _ => cases hp

theorem writePieces_congr {ps : List Piece} (hoptions : site.options = site'.options)
    (hschema : site.schema = site'.schema)
    (hfixed : ∀ p ∈ ps, p.read? = none → site.fixed p = site'.fixed p) (answers : List Answer) :
    site.writePieces ps answers = site'.writePieces ps answers := by
  induction ps generalizing answers with
  | nil => rfl
  | cons p ps ih =>
    have hrest := ih fun q hq => hfixed q (List.mem_cons_of_mem _ hq)
    rw [writePieces, writePieces]
    cases hp : p.read? with
    | none => simp only [hfixed p (List.mem_cons_self ..) hp, hrest]
    | some slot => simp only [writePiece_congr hoptions hschema hp, hrest]

/-- Sites that resemble each other give the same code for the same answers. -/
theorem Resembles.write_eq {r : Rule} (h : Resembles r site site') (answers : List Answer) :
    site.write r answers = site'.write r answers := by
  obtain ⟨hoptions, hschema, hmode, htexts⟩ := h
  cases r with
  | template t =>
    rw [write, write]
    cases t with
    | statement ps => rw [writeTemplate, writeTemplate, writePieces_congr hoptions hschema htexts]
    | expression produced ps =>
      rw [writeTemplate, writeTemplate, writePieces_congr hoptions hschema htexts]
    | number name => rw [writeTemplate, writeTemplate, htexts]
    | binary family => rw [writeTemplate, writeTemplate, htexts, hschema]
  | call c =>
    rw [write, write, writeArguments, writeArguments, htexts.1, htexts.2, hmode, hschema]
  | method m => rw [write, write, hschema]
  | constant text => rw [write, write, hschema]

theorem fixed_congr {p : Piece} (hoptions : site.options = site'.options)
    (hfield : ∀ name, site.field name = site'.field name) (hp : p.read? = none) :
    site.fixed p = site'.fixed p := by
  cases p with
  | code text => rfl
  | field name => exact hfield name
  | quoted name => exact congrArg escapeString (hfield name)
  | bracketed name => simp only [fixed, piece, hfield]
  | passage name => simp only [fixed, piece, hfield, hoptions]
  | _ => cases hp

/-- The code of other blocks comes in with the answers only. -/
theorem Resembles.of_fields {r : Rule} (hoptions : site.options = site'.options)
    (hschema : site.schema = site'.schema) (hmode : site.block.mode = site'.block.mode)
    (hfields : site.block.fields = site'.block.fields) : Resembles r site site' := by
  have hfield : ∀ name, site.field name = site'.field name := fun name => by
    rw [field, field, hschema, hfields]
  refine ⟨hoptions, hschema, hmode, ?_⟩
  split
  · exact fun p _ => fixed_congr hoptions hfield
  · exact fun p _ => fixed_congr hoptions hfield
  · exact hfield _
  · exact hfield _
  · refine ⟨?_, ?_⟩
    · rw [compactArguments, compactArguments, hfield]
    · funext index param
      rw [expandedArgument, expandedArgument, hfields]
  · trivial

end Resembling

end Site

end Blockwright
