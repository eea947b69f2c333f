import SsaIr.Proofs.Module.Written

/-!
# Comments of a module

What a line adds to a module, comments apart, does not depend on the comments of that line or of
the lines before it. So comments may be changed by a rule before a line is taken in, or after.
-/

namespace SsaIr

/-- How comments are changed; that of a block may depend on the label of the block. -/
structure CommentRule where
  block : (label : String) → Option String → Option String
  other : Option String → Option String
  /-- A block that an instruction opened has no comment, and gets none. -/
  block_none : ∀ label, block label none = none

variable (rule : CommentRule)

/-! ## Changing the comments -/

def Instruction.recomment (i : Instruction) : Instruction :=
  { i with comment := rule.other i.comment }

def Block.recomment (b : Block) : Block :=
  { b with
    instructions := b.instructions.map (Instruction.recomment rule)
    comment := rule.block b.label b.comment }

def Function.recomment (f : Function) : Function :=
  { f with blocks := f.blocks.map (Block.recomment rule), comment := rule.other f.comment }

def Global.recomment (g : Global) : Global := { g with comment := rule.other g.comment }

def Module.recomment (m : Module) : Module :=
  { m with
    functions := m.functions.map (Function.recomment rule)
    globals := m.globals.map (Global.recomment rule) }

def Module.Reader.recomment (r : Module.Reader) : Module.Reader :=
  { module := r.module.recomment rule, current := r.current.map (Function.recomment rule) }

/-- What a line of a body says, with its comment changed. -/
def Function.BodyLine.recomment : Function.BodyLine → Function.BodyLine
  | .blank => .blank
  | .close => .close
  | .label name comment => .label name (rule.block (String.ofList name) comment)
  | .instruction code comment => .instruction code (rule.other comment)

/-- What a line at module level says, with its comment changed. -/
def Module.TopLine.recomment : Module.TopLine → Module.TopLine
  | .global code comment => .global code (rule.other comment)
  | .define header comment => .define header (rule.other comment)
  | .declare header comment => .declare header (rule.other comment)
  | line => line

variable {rule} {f : Function} {b : Block} {m : Module}

/-! ## Bodies -/

theorem Block.recomment_add (b : Block) (i : Instruction) :
    (b.add i).recomment rule = (b.recomment rule).add (i.recomment rule) := by
  simp [Block.recomment, Block.add]

namespace Function

theorem labels_recomment (f : Function) : (f.recomment rule).labels = f.labels := by
  rw [labels, labels, recomment, List.map_map]
  rfl

theorem recomment_addBlock (f : Function) (b : Block) :
    (f.addBlock b).recomment rule = (f.recomment rule).addBlock (b.recomment rule) := by
  simp [recomment, addBlock]

theorem recomment_openBlock (f : Function) (name : List Char) (comment : Option String) :
    (f.recomment rule).openBlock name (rule.block (String.ofList name) comment) =
      (f.openBlock name comment).map (recomment rule) := by
  have hsome : ((f.recomment rule).blockIndex? (String.ofList name)).isSome =
      (f.blockIndex? (String.ofList name)).isSome := by
    rw [Bool.eq_iff_iff, blockIndex?_isSome_iff, blockIndex?_isSome_iff, labels_recomment]
  rw [openBlock, openBlock, hsome]
  split
  · rfl
  · split
    · rfl
    · rw [Except.map, recomment_addBlock]
      rfl

theorem recomment_addInstruction (f : Function) (i : Instruction) :
    (f.addInstruction i).recomment rule = (f.recomment rule).addInstruction (i.recomment rule) := by
  rcases List.eq_nil_or_concat f.blocks with hnil | ⟨bs, b, hconcat⟩
  · have hnil' : (f.recomment rule).blocks = [] := by rw [recomment, hnil, List.map_nil]
    rw [addInstruction_of_nil hnil, addInstruction_of_nil hnil', recomment_addBlock,
      Block.recomment, rule.block_none]
    rfl
  · rw [List.concat_eq_append] at hconcat
    have hconcat' : (f.recomment rule).blocks =
        bs.map (Block.recomment rule) ++ [b.recomment rule] := by
      rw [recomment, hconcat, List.map_append, List.map_singleton]
    rw [addInstruction_of_concat hconcat, addInstruction_of_concat hconcat', ← Block.recomment_add]
    simp [recomment]

/-- Comments may be changed before a line of a body is added, or after. -/
theorem recomment_addBodyLine (f : Function) (line : BodyLine) :
    (f.recomment rule).addBodyLine (line.recomment rule) =
      (f.addBodyLine line).map (recomment rule) := by
  cases line with
  | blank | close => rfl
  | label name comment => exact recomment_openBlock f name comment
  | instruction code comment =>
      have hnames : (f.recomment rule).parameterNames = f.parameterNames := rfl
      rw [BodyLine.recomment, addBodyLine, addBodyLine, hnames]
      cases Instruction.parse f.parameterNames code with
      | error e => rfl
      | ok i => exact congrArg Except.ok (recomment_addInstruction f { i with comment }).symm

end Function

/-! ## Modules -/

namespace Module

theorem recomment_addFunction (m : Module) (f : Function) :
    (m.addFunction f).recomment rule = (m.recomment rule).addFunction (f.recomment rule) := by
  have hkind : (·.isDeclaration) ∘ Function.recomment rule = (·.isDeclaration) := rfl
  rw [addFunction, addFunction, show (f.recomment rule).isDeclaration = f.isDeclaration from rfl]
  split
  · simp [recomment, List.takeWhile_map, List.dropWhile_map, hkind]
  · simp [recomment]

namespace Reader

theorem recomment_addTopLine (m : Module) (line : TopLine) :
    addTopLine (m.recomment rule) (line.recomment rule) =
      (addTopLine m line).map (recomment rule) := by
  cases line with
  | blank | moduleId text | targetInfo text | metadata text | unknown code => rfl
  | global code comment =>
      rw [TopLine.recomment, addTopLine, addTopLine]
      cases Global.parse code with
      | error e => rfl
      | ok g => simp [Except.map, recomment, Module.recomment, addGlobal, Global.recomment]
  | define header comment =>
      rw [TopLine.recomment, addTopLine, addTopLine]
      cases hf : Function.parseHeader false header with
      | error e => rfl
      | ok f =>
          obtain ⟨hblocks, -, -⟩ := Function.of_parseHeader hf
          simp [Except.map, recomment, Function.recomment, hblocks]
  | declare header comment =>
      rw [TopLine.recomment, addTopLine, addTopLine]
      cases hf : Function.parseHeader true header with
      | error e => rfl
      | ok f =>
          obtain ⟨hblocks, -, -⟩ := Function.of_parseHeader hf
          simp [Except.map, recomment, recomment_addFunction, Function.recomment, hblocks]

/-- The state after a line that says `top` at module level and `body` inside a function. -/
def take (r : Reader) (top : TopLine) (body : Function.BodyLine) : Except ParseError Reader :=
  match r.current with
  | none => addTopLine r.module top
  | some f =>
    match body with
    | .close => .ok { module := r.module.addFunction f }
    | line => (f.addBodyLine line).map fun f => { r with current := some f }

theorem step_eq_take (r : Reader) (l : List Char) :
    r.step l = r.take (TopLine.ofLine l) (Function.BodyLine.ofLine l) := rfl

/-- Any line of a body but its end goes to the function. -/
theorem take_body {top : TopLine} {body : Function.BodyLine} (hbody : body ≠ .close) :
    ({ module := m, current := some f } : Reader).take top body =
      (f.addBodyLine body).map fun f => { module := m, current := some f } := by
  unfold take
  dsimp only
  split
  · exact absurd rfl hbody
  · rfl

/-- Comments may be changed before a line is taken in, or after. -/
theorem recomment_take (r : Reader) (top : TopLine) (body : Function.BodyLine) :
    (r.recomment rule).take (top.recomment rule) (body.recomment rule) =
      (r.take top body).map (recomment rule) := by
  obtain ⟨m, current⟩ := r
  cases current with
  | none => exact recomment_addTopLine m top
  | some f =>
      by_cases hclose : body = .close
      · rw [hclose]
        exact congrArg (fun m => (.ok ⟨m, none⟩ : Except ParseError Reader))
          (recomment_addFunction m f).symm
      · have hclose' : body.recomment rule ≠ .close := by
          cases body with
          | close => exact absurd rfl hclose
          | _ => simp [Function.BodyLine.recomment]
        rw [take_body hclose]
        refine (take_body hclose').trans ?_
        rw [Function.recomment_addBodyLine]
        cases f.addBodyLine body with
        | error e => rfl
        | ok g => rfl

end Reader

end Module

end SsaIr
