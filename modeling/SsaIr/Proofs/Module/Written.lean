import SsaIr.Proofs.Module.TopLine
import SsaIr.Proofs.PhiElimination.InPlace

/-!
# What was read

Everything in a module that was read comes from lines of the text. Eliminating phis keeps that
for all lines but those of the phis, whose values end up in copies.
-/

namespace SsaIr

open Text

variable {f g : Function} {m m' : Module} {l : List Char} {file text : String} {n : Nat}

namespace Function

theorem of_parseHeader {d : Bool} (h : parseHeader d l = .ok f) :
    f.blocks = [] ∧ f.comment = none ∧ f.isDeclaration = d := by
  obtain ⟨_, _, _, _, _, _, _, g, mods, -, -, -, -, -, -, hg, -, rfl⟩ := parseHeader_eq_ok_iff.1 h
  obtain ⟨_, _, ps, -, -, -, rfl⟩ :=
    (foldlM_addParameter_eq_ok_iff rfl rfl).1 (hg fun reason => .malformedHeader reason)
  rw [foldl_addModifier]
  exact ⟨rfl, rfl, rfl⟩

/-- The line of a header says what the function has without its blocks. -/
structure FromHeader (f : Function) (line : List Char) : Prop where
  newline : '\n' ∉ line
  ofLine : ∃ text, Module.TopLine.ofLine line =
      (if f.isDeclaration then .declare text f.comment else .define text f.comment) ∧
    parseHeader f.isDeclaration text = .ok { f with blocks := [], comment := none }

/-- A function as modules that were read have it, with phis eliminated or not. -/
structure Written (f : Function) : Prop extends f.WrittenBody where
  header : ∃ line, f.FromHeader line
  declaration : f.isDeclaration = true → f.blocks = []

/-- A header with other blocks behind it is the same header. -/
theorem FromHeader.with_blocks (h : f.FromHeader l) (bs : List Block) :
    ({ f with blocks := bs } : Function).FromHeader l := ⟨h.newline, h.ofLine⟩

theorem writtenBody_of_nil (h : f.blocks = []) : f.WrittenBody := by
  constructor
  · rw [h]
    simp
  · rw [labels, h]
    exact List.nodup_nil

/-- A header that was just read. -/
theorem written_of_parseHeader {d : Bool} {code : List Char} {comment : Option String}
    (hl : '\n' ∉ l) (hline : Module.TopLine.ofLine l =
      (if d then .declare code comment else .define code comment))
    (h : parseHeader d code = .ok f) : ({ f with comment } : Function).Written := by
  obtain ⟨hblocks, hcomment, rfl⟩ := of_parseHeader h
  refine ⟨writtenBody_of_nil hblocks, ⟨l, hl, code, hline, ?_⟩, fun _ => hblocks⟩
  rw [h, ← hblocks, ← hcomment]

/-- One more line of the body keeps a definition as it was read. -/
theorem Written.addBodyLine (h : f.Written) (hdefinition : f.isDeclaration = false)
    (hl : '\n' ∉ l) (hadd : f.addBodyLine (BodyLine.ofLine l) = .ok g) :
    g.Written ∧ g.isDeclaration = false := by
  obtain ⟨hbody, heq⟩ := h.toWrittenBody.addBodyLine hl hadd
  obtain ⟨line, hline⟩ := h.header
  have hg : g.isDeclaration = false := (congrArg Function.isDeclaration heq).trans hdefinition
  refine ⟨⟨hbody, ⟨line, heq ▸ hline.with_blocks g.blocks⟩, fun hd => ?_⟩, hg⟩
  rw [hg] at hd
  cases hd

/-- The copies for a phi come from its line. -/
theorem written_of_mem_copiesTo (h : f.WrittenBody) {label : String} {c : Instruction}
    (hc : c ∈ f.copiesTo label) : c.Written f.parameterNames := by
  obtain ⟨target, htarget, phi, name, v, ⟨hmem, hphi, hname, hincoming⟩, rfl⟩ :=
    mem_copiesTo_iff.1 hc
  cases (h.blocks target htarget).instructions phi hmem with
  | line hline => exact .copy hline hphi hname hincoming
  | copy => cases hphi

theorem Written.eliminatePhis (h : f.Written) (helim : f.eliminatePhis = .ok (g, n)) :
    g.Written ∧ g.isDeclaration = f.isDeclaration := by
  obtain ⟨⟨hblocks, hlabels⟩, ⟨line, hheader⟩, hdeclaration⟩ := id h
  rw [(eliminable_of_eliminatePhis helim).eliminatePhis_eq hlabels] at helim
  obtain ⟨rfl, -⟩ := Prod.mk.inj (Except.ok.inj helim)
  refine ⟨⟨⟨fun b hb => ?_, ?_⟩, ⟨line, hheader.with_blocks _⟩, fun hd => ?_⟩, rfl⟩
  · obtain ⟨c, hc, rfl⟩ := List.mem_map.1 hb
    obtain ⟨hlabel, hcomment, hinstructions⟩ := hblocks c hc
    refine ⟨hlabel, hcomment, fun i hi => ?_⟩
    rcases List.mem_append.1 hi with hi | hi
    · exact hinstructions i (List.mem_filter.1 hi).1
    · exact written_of_mem_copiesTo h.toWrittenBody hi
  · rw [labels, List.map_map]
    exact hlabels
  · change f.blocks.map f.withoutPhis = []
    rw [hdeclaration hd, List.map_nil]

end Function

/-- A variable that was read from a line. -/
def Global.Written (g : Global) : Prop :=
  ∃ line code, '\n' ∉ line ∧ Module.TopLine.ofLine line = .global code g.comment ∧
    Global.parse code = .ok { g with comment := none }

namespace Module

/-- A module as it is read, with phis eliminated or not. -/
structure Written (m : Module) : Prop where
  moduleId : ∀ t ∈ m.moduleId, ∃ line, '\n' ∉ line ∧ TopLine.ofLine line = .moduleId t.toList
  targetInfo : ∀ t ∈ m.targetInfo, ∃ line, '\n' ∉ line ∧
    TopLine.ofLine line = .targetInfo t.toList
  metadata : ∀ t ∈ m.metadata, ∃ line, '\n' ∉ line ∧ TopLine.ofLine line = .metadata t.toList
  globals : ∀ g ∈ m.globals, g.Written
  functions : ∀ f ∈ m.functions, f.Written
  order : m.functions = m.declarations ++ m.definitions

theorem addFunction_eq (m : Module) (f : Function) :
    m.addFunction f = { m with functions := (m.addFunction f).functions } := by
  unfold addFunction
  split <;> rfl

theorem functions_addFunction (h : m.functions = m.declarations ++ m.definitions) :
    (m.addFunction f).functions = if f.isDeclaration
      then m.declarations ++ f :: m.definitions else m.declarations ++ (m.definitions ++ [f]) := by
  unfold addFunction
  split
  · have hdeclarations : ∀ g ∈ m.declarations, g.isDeclaration = true := fun g hg =>
      (List.mem_filter.1 hg).2
    have htake : m.definitions.takeWhile (·.isDeclaration) = [] ∧
        m.definitions.dropWhile (·.isDeclaration) = m.definitions := by
      cases hd : m.definitions with
      | nil => exact ⟨rfl, rfl⟩
      | cons g gs =>
          have hg := (List.mem_filter.1 (hd ▸ List.mem_cons_self : g ∈ m.definitions)).2
          rw [Bool.not_eq_true'] at hg
          rw [List.takeWhile_cons, List.dropWhile_cons, hg]
          exact ⟨rfl, rfl⟩
    change m.functions.takeWhile (·.isDeclaration) ++
      f :: m.functions.dropWhile (·.isDeclaration) = _
    rw [h, List.takeWhile_append_of_pos hdeclarations, List.dropWhile_append_of_pos hdeclarations,
      htake.1, htake.2, List.append_nil]
  · exact (congrArg (· ++ [f]) h).trans (List.append_assoc ..)

theorem mem_functions_addFunction (h : m.functions = m.declarations ++ m.definitions)
    (hg : g ∈ (m.addFunction f).functions) : g ∈ m.functions ∨ g = f := by
  rw [functions_addFunction h] at hg
  rw [h]
  split at hg <;> simp only [List.mem_append, List.mem_cons, List.not_mem_nil, or_false] at hg ⊢
  · tauto
  · tauto

theorem order_addFunction (h : m.functions = m.declarations ++ m.definitions) :
    (m.addFunction f).functions = (m.addFunction f).declarations ++ (m.addFunction f).definitions := by
  rw [declarations, definitions, functions_addFunction h]
  split
  · next hf => simp [declarations, definitions, List.filter_filter, hf]
  · next hf => simp [declarations, definitions, List.filter_filter, hf]

theorem Written.addFunction (h : m.Written) (hf : f.Written) : (m.addFunction f).Written := by
  have hmem : ∀ g ∈ (m.addFunction f).functions, g.Written := by
    intro g hg
    rcases mem_functions_addFunction h.order hg with hg | rfl
    · exact h.functions g hg
    · exact hf
  have horder := order_addFunction (f := f) h.order
  rw [addFunction_eq] at horder ⊢
  exact { h with functions := hmem, order := horder }

/-- What has been read so far. -/
def Reader.Written (r : Reader) : Prop :=
  r.module.Written ∧ ∀ f ∈ r.current, f.Written ∧ f.isDeclaration = false

theorem Reader.written_of_module (h : m.Written) : Reader.Written { module := m } :=
  ⟨h, by simp⟩

/-- A line at module level adds what it says. -/
theorem Written.addTopLine {r : Reader} (h : m.Written) (hl : '\n' ∉ l)
    (hadd : Reader.addTopLine m (TopLine.ofLine l) = .ok r) : r.Written := by
  cases hline : TopLine.ofLine l with
  | blank =>
      rw [hline] at hadd
      obtain rfl := Except.ok.inj hadd
      exact Reader.written_of_module h
  | moduleId text =>
      rw [hline] at hadd
      obtain rfl := Except.ok.inj hadd
      refine Reader.written_of_module { h with moduleId := ?_ }
      rintro _ ⟨⟩
      exact ⟨l, hl, by rw [hline, String.toList_ofList]⟩
  | targetInfo text =>
      rw [hline] at hadd
      obtain rfl := Except.ok.inj hadd
      refine Reader.written_of_module { h with targetInfo := fun t ht => ?_ }
      rcases List.mem_append.1 ht with ht | ht
      · exact h.targetInfo t ht
      · rw [List.mem_singleton.1 ht, String.toList_ofList]
        exact ⟨l, hl, hline⟩
  | metadata text =>
      rw [hline] at hadd
      obtain rfl := Except.ok.inj hadd
      refine Reader.written_of_module { h with metadata := fun t ht => ?_ }
      rcases List.mem_append.1 ht with ht | ht
      · exact h.metadata t ht
      · rw [List.mem_singleton.1 ht, String.toList_ofList]
        exact ⟨l, hl, hline⟩
  | global code comment =>
      rw [hline] at hadd
      obtain ⟨g, hg, rfl⟩ := map_eq_ok_iff.1 hadd
      refine Reader.written_of_module { h with globals := fun g' hg' => ?_ }
      rcases List.mem_append.1 hg' with hg' | hg'
      · exact h.globals g' hg'
      · rw [List.mem_singleton.1 hg']
        refine ⟨l, code, hl, hline, ?_⟩
        rw [hg, ← Global.comment_of_parse hg]
  | define code comment =>
      rw [hline] at hadd
      obtain ⟨f, hf, rfl⟩ := map_eq_ok_iff.1 hadd
      refine ⟨h, ?_⟩
      rintro _ ⟨⟩
      exact ⟨Function.written_of_parseHeader (d := false) hl hline hf, (Function.of_parseHeader hf).2.2⟩
  | declare code comment =>
      rw [hline] at hadd
      obtain ⟨f, hf, rfl⟩ := map_eq_ok_iff.1 hadd
      exact Reader.written_of_module
        (h.addFunction (Function.written_of_parseHeader (d := true) hl hline hf))
  | unknown code =>
      rw [hline] at hadd
      cases hadd

theorem Reader.Written.step {r r' : Reader} (h : r.Written) (hl : '\n' ∉ l)
    (hstep : r.step l = .ok r') : r'.Written := by
  obtain ⟨hm, hcurrent⟩ := h
  cases hr : r.current with
  | none =>
      rw [Reader.step, hr] at hstep
      exact hm.addTopLine hl hstep
  | some f =>
      obtain ⟨hf, hdefinition⟩ := hcurrent f hr
      rw [Reader.step, hr] at hstep
      dsimp only at hstep
      split at hstep
      · obtain rfl := Except.ok.inj hstep
        exact Reader.written_of_module (hm.addFunction hf)
      · obtain ⟨g, hg, rfl⟩ := map_eq_ok_iff.1 hstep
        refine ⟨hm, ?_⟩
        rintro _ ⟨⟩
        exact hf.addBodyLine hdefinition hl hg

/-- A module that is read from a text comes from its lines. -/
theorem written_of_parse (h : parse file text = .ok m) : m.Written := by
  have hreads := Reader.parseLines_eq_ok_iff.1 h
  have hempty : ({} : Module).Written := by
    constructor <;> simp [declarations, definitions]
  refine (hreads.induction (P := Reader.Written) (Reader.written_of_module hempty) ?_).1
  intro r r' l hl hstep hr
  obtain ⟨line, hline, rfl⟩ := List.mem_map.1 hl
  rw [String.toList_ofList] at hstep
  exact hr.step (not_mem_of_mem_lines hline) hstep

/-! ## Eliminating phis -/

/-- What eliminating phis makes of a function: declarations stay as they are. -/
def Eliminates (f g : Function) : Prop :=
  f.isDeclaration = true ∧ g = f ∨ f.isDeclaration = false ∧ ∃ n, f.eliminatePhis = .ok (g, n)

theorem forall₂_of_eliminateInFunctions {fs gs : List Function}
    (h : eliminateInFunctions fs = (gs, .ok n)) : List.Forall₂ Eliminates fs gs := by
  rw [← eliminateInEach_eq] at h
  obtain ⟨results, hall, rfl, -⟩ := eliminateInEach_eq_ok_iff.1 h
  rw [List.forall₂_map_right_iff]
  refine hall.imp fun f r hr => ?_
  rcases hr with ⟨hf, rfl⟩ | ⟨hf, hr⟩
  · exact .inl ⟨hf, rfl⟩
  · exact .inr ⟨hf, r.2, Function.eliminateInPlace_eq_ok_iff.1 hr⟩

theorem Eliminates.written (h : Eliminates f g) (hf : f.Written) :
    g.Written ∧ g.isDeclaration = f.isDeclaration := by
  rcases h with ⟨-, rfl⟩ | ⟨-, n, hg⟩
  · exact ⟨hf, rfl⟩
  · exact hf.eliminatePhis hg

/-- A list has what satisfies a condition in front if nothing else stands in front of that. -/
theorem eq_filter_append_filter_iff {α : Type} {p : α → Bool} {as : List α} :
    as = as.filter p ++ as.filter (!p ·) ↔
      (as.map p).Pairwise fun d e => e = true → d = true := by
  induction as with
  | nil => simp
  | cons a as ih =>
      rw [List.map_cons, List.pairwise_cons]
      cases ha : p a with
      | true => simp [ha, ih]
      | false =>
          rw [List.filter_cons_of_neg (by simp [ha]), List.filter_cons_of_pos (by simp [ha])]
          constructor
          · intro h
            have hnil : as.filter p = [] := by
              cases hf : as.filter p with
              | nil => rfl
              | cons c cs =>
                  have hc := (List.mem_filter.1 (hf ▸ List.mem_cons_self : c ∈ as.filter p)).2
                  rw [hf] at h
                  rw [← (List.cons.inj h).1, ha] at hc
                  cases hc
            have hnone : ∀ e ∈ as.map p, ¬e = true := by
              simpa using List.filter_eq_nil_iff.1 hnil
            refine ⟨fun e he htrue => absurd htrue (hnone e he), ?_⟩
            exact List.pairwise_of_forall_mem_list fun d _ e he htrue => absurd htrue (hnone e he)
          · rintro ⟨hall, -⟩
            have hnone : ∀ b ∈ as, p b = false := by simpa using hall
            rw [List.filter_eq_nil_iff.2 (by simpa using hnone),
              List.filter_eq_self.2 (by simpa using hnone)]
            rfl

/-- Declarations stand in front if no definition stands in front of one. -/
theorem order_iff : m.functions = m.declarations ++ m.definitions ↔
    (m.functions.map Function.isDeclaration).Pairwise fun d e => e = true → d = true :=
  eq_filter_append_filter_iff

theorem Written.eliminatePhis (h : m.Written) (helim : m.eliminatePhis = (m', .ok n)) :
    m'.Written := by
  obtain ⟨rfl, hcount⟩ := Prod.mk.inj helim
  have hall := forall₂_of_eliminateInFunctions (Prod.ext rfl hcount)
  have hwritten := forall₂_imp_of_mem hall fun f g hf _ he => he.written (h.functions f hf)
  have horder := order_iff.1 h.order
  have hsame : m.functions.map Function.isDeclaration =
      (eliminateInFunctions m.functions).1.map Function.isDeclaration := by
    rw [← List.forall₂_eq_eq_eq, List.forall₂_map_left_iff, List.forall₂_map_right_iff]
    exact hwritten.imp fun f g he => he.2.symm
  rw [hsame] at horder
  exact { h with
    functions := forall_mem_of_forall₂ (hwritten.imp fun _ _ he => he.1)
    order := order_iff.2 horder }

end Module

end SsaIr
