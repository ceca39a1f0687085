import Mathlib
import MiniJvm.Proofs.Assembly.Grammar
import MiniJvm.Proofs.Assembly.Positions

/-!
# How tokens are written

A token of a source is the token of the word that it is written as (`Token.Spelled`). A label is
declared with a colon behind its name, and a branch may name it with the colon or without. Without
the colon a name that is an integer literal is the index of an instruction (`assemble_branches`).
-/

namespace MiniJvm.Assembly

/-- The word that a token is written as. A label has its colon. -/
def Token.written (t : Token) : Bytes := if t.kind = .label then t.literal ++ ":" else t.literal

/-- The token is the one of the word that it is written as. -/
def Token.Spelled (t : Token) : Prop := t = Token.ofWord t.pos t.written

/-! ## Words -/

/-- A name with a colon behind it, the only one, and not an integer literal as a whole. -/
structure IsLabel (w : Bytes) : Prop where
  noInteger : Literal.int64? w = none
  length : w.length > 1
  last : w.getLast? = some 58
  count : w.count 58 = 1

theorem ofWord_integer (pos : Position) {w : Bytes} {v : Int} (h : Literal.int64? w = some v) :
    Token.ofWord pos w = ⟨.integer v, w, pos⟩ := by
  rw [Token.ofWord, h]

theorem ofWord_label (pos : Position) {w : Bytes} (hw : IsLabel w) :
    Token.ofWord pos w = ⟨.label, w.dropLast, pos⟩ := by
  simp [Token.ofWord, hw.noInteger, hw.length, hw.last, hw.count]

theorem ofWord_name (pos : Position) {name : Bytes} (hw : IsLabel (name ++ ":")) :
    Token.ofWord pos (name ++ ":") = ⟨.label, name, pos⟩ := by
  have hname : (name ++ ":" : Bytes).dropLast = name := List.dropLast_concat
  rw [ofWord_label pos hw, hname]

theorem ofWord_word (pos : Position) {w : Bytes} (h : Literal.int64? w = none)
    (hw : ¬IsLabel w) : Token.ofWord pos w = ⟨.word, w, pos⟩ := by
  rw [Token.ofWord, h]
  dsimp only
  rw [if_neg]
  intro hlabel
  simp only [Bool.and_eq_true, decide_eq_true_eq] at hlabel
  exact hw ⟨h, hlabel.1.1, hlabel.1.2, hlabel.2⟩

theorem spelled_ofWord (pos : Position) (w : Bytes) : (Token.ofWord pos w).Spelled := by
  rw [Token.Spelled, Token.written]
  cases hv : Literal.int64? w with
  | some v => simp [ofWord_integer pos hv]
  | none =>
    by_cases hw : IsLabel w
    · have hwritten : w.dropLast ++ ":" = w := List.dropLast_append_getLast? 58 hw.last
      simp [ofWord_label pos hw, hwritten]
    · simp [ofWord_word pos hv hw]

theorem Token.Spelled.isLabel {t : Token} (h : t.Spelled) (ht : t.kind = .label) :
    IsLabel (t.literal ++ ":") := by
  rw [Token.Spelled, Token.written, if_pos ht] at h
  by_contra hw
  cases hv : Literal.int64? (t.literal ++ ":") with
  | some v =>
    rw [ofWord_integer _ hv] at h
    rw [h] at ht
    cases ht
  | none =>
    rw [ofWord_word _ hv hw] at h
    rw [h] at ht
    cases ht

theorem not_isLabel_of_isLabel {name : Bytes} (h : IsLabel (name ++ ":")) : ¬IsLabel name := by
  intro hname
  have hcount := h.count
  have hlast : ((":" : Bytes).count 58) = 1 := rfl
  rw [List.count_append, hname.count, hlast] at hcount
  cases hcount

/-! ## Sources -/

/-- What a token of a source is: a place between words, or a word. -/
def Token.Sound (t : Token) : Prop := t.kind = .newline ∨ t.kind = .endOfFile ∨ t.Spelled

theorem sound_pending (mode : Mode) : ∀ t ∈ mode.pending, t.Sound := by
  cases mode with
  | between | comment => exact nofun
  | word start reversed =>
    intro t ht
    cases List.mem_singleton.1 ht
    exact .inr (.inr (spelled_ofWord ..))

theorem sound_tokensFrom (mode : Mode) (p : Position) (source : Bytes) :
    ∀ t ∈ tokensFrom mode p source, t.Sound := by
  induction source generalizing mode p with
  | nil =>
    intro t ht
    rw [tokensFrom, List.mem_append, List.mem_singleton] at ht
    rcases ht with ht | rfl
    · exact sound_pending mode t ht
    · exact .inr (.inl rfl)
  | cons b rest ih =>
    intro t ht
    unfold tokensFrom at ht
    split at ht
    · rw [List.mem_append, List.mem_cons] at ht
      rcases ht with ht | rfl | ht
      · exact sound_pending mode t ht
      · exact .inl rfl
      · exact ih _ _ t ht
    · split at ht
      · exact ih _ _ t ht
      · split at ht
        · exact ih _ _ t ht
        · split at ht <;> exact ih _ _ t ht
      · split at ht
        · rcases List.mem_cons.1 ht with rfl | ht
          · exact .inr (.inr (spelled_ofWord ..))
          · exact ih _ _ t ht
        · exact ih _ _ t ht

/-- Neither a line end nor the end of the source is in a line. -/
theorem kind_of_mem_lines {tokens l : List Token} (hl : l ∈ lines tokens) {t : Token}
    (ht : t ∈ l) : t.kind ≠ .newline ∧ t.kind ≠ .endOfFile := by
  induction tokens generalizing l with
  | nil =>
    rw [lines, List.mem_singleton] at hl
    subst hl
    cases ht
  | cons first rest ih =>
    rw [lines] at hl
    split at hl
    · cases List.mem_singleton.1 hl
      cases ht
    · rcases List.mem_cons.1 hl with rfl | hl
      · cases ht
      · exact ih hl ht
    · rename_i hstop hline
      have hfirst : first.kind ≠ .newline ∧ first.kind ≠ .endOfFile :=
        ⟨fun h => hline h, fun h => hstop h⟩
      split at hl
      · cases List.mem_singleton.1 hl
        cases List.mem_singleton.1 ht
        exact hfirst
      · rename_i l' ls hls
        rw [hls] at ih
        rcases List.mem_cons.1 hl with rfl | hl
        · rcases List.mem_cons.1 ht with rfl | ht
          · exact hfirst
          · exact ih (List.mem_cons_self ..) ht
        · exact ih (List.mem_cons_of_mem _ hl) ht

theorem spelled_of_mem_phrases {source : Bytes} {l : List Token} (hl : l ∈ phrases source)
    {t : Token} (ht : t ∈ l) : t.Spelled := by
  have hl := List.mem_of_mem_filter hl
  obtain ⟨hline, hstop⟩ := kind_of_mem_lines hl ht
  rcases sound_tokensFrom _ _ _ t ((lines_spec _).2 l hl t ht) with h | h | h
  · exact absurd h hline
  · exact absurd h hstop
  · exact h

/-- The label of a line is one that a token declares, and the operands are tokens of words. -/
structure BodyLine.Spelled (line : BodyLine) : Prop where
  label : line.label ≠ [] → IsLabel (line.label ++ ":")
  operands : ∀ t ∈ line.operands, t.Spelled

theorem spelled_of_bodyPhrase {l : List Token} {line : BodyLine} (h : Grammar.BodyPhrase l line)
    (hl : ∀ t ∈ l, t.Spelled) : line.Spelled := by
  cases h with
  | label hlabel => exact ⟨fun _ => (hl _ (List.mem_singleton_self _)).isLabel hlabel, nofun⟩
  | plain _ _ => exact ⟨fun h => absurd rfl h, fun t ht => hl t (List.mem_cons_of_mem _ ht)⟩
  | labelled hlabel _ =>
    exact ⟨fun _ => (hl _ (List.mem_cons_self ..)).isLabel hlabel,
      fun t ht => hl t (List.mem_cons_of_mem _ (List.mem_cons_of_mem _ ht))⟩

theorem Grammar.Many.mem {β : Type} {phrase : List (List Token) → β → Prop}
    {ls : List (List Token)} {bs : List β} (h : Many phrase ls bs) {b : β} (hb : b ∈ bs) :
    ∃ part, phrase part b ∧ part ⊆ ls := by
  induction h with
  | nil => cases hb
  | cons hphrase _ ih =>
    rcases List.mem_cons.1 hb with rfl | hb
    · exact ⟨_, hphrase, List.subset_append_left ..⟩
    · obtain ⟨part, hpart, hsub⟩ := ih hb
      exact ⟨part, hpart, List.subset_append_of_subset_right _ hsub⟩

theorem spelled_of_methodPhrase {ls : List (List Token)} {m : MethodDecl}
    (h : Grammar.MethodPhrase ls m) (hls : ∀ l ∈ ls, ∀ t ∈ l, t.Spelled) :
    ∀ line ∈ m.body, line.Spelled := by
  obtain ⟨-, hlines, -⟩ := h
  intro line hline
  obtain ⟨l, hl, hphrase⟩ := exists_of_forall₂ hlines (List.mem_toArray.1 hline)
  exact spelled_of_bodyPhrase hphrase
    (hls l (List.mem_cons_of_mem _ (List.mem_append_left _ hl)))

def ClassDecl.Spelled (c : ClassDecl) : Prop := ∀ m ∈ c.methods, ∀ line ∈ m.body, line.Spelled

theorem spelled_of_parse {source : Bytes} {classes : List ClassDecl}
    (h : parse source = .ok classes) : ∀ c ∈ classes, c.Spelled := by
  intro c hc m hm
  obtain ⟨part, ⟨-, hmethods, -⟩, hpart⟩ := (parse_eq_ok_iff.1 h).mem hc
  obtain ⟨body, hbody, hsub⟩ := hmethods.mem (List.mem_toArray.1 hm)
  refine spelled_of_methodPhrase hbody fun l hl t ht => spelled_of_mem_phrases (hpart ?_) ht
  exact List.mem_cons_of_mem _ (List.mem_append_left _ (hsub hl))

/-- The classes of an accepted source, with the lines as written, are translated. -/
theorem translated_of_assemble {source : Bytes} {defs : List ClassDef}
    (h : assemble source = .ok defs) :
    ∃ classes, parse source = .ok classes ∧
      List.Forall₂ (fun c d => c.Spelled ∧ ∃ b, TranslatesClass c d b) classes defs := by
  obtain ⟨classes, hparse, hgenerate⟩ := bind_eq_ok.1 h
  exact ⟨classes, hparse,
    (List.forall₂_and_left ..).2 ⟨spelled_of_parse hparse, translated_of_generate hgenerate⟩⟩

/-! ## Branches -/

theorem LabelAt.isLabel {body : List BodyLine} (hbody : ∀ line ∈ body, line.Spelled)
    {name : Bytes} {k : Nat} (h : LabelAt body name k) : IsLabel (name ++ ":") := by
  obtain ⟨hne, declaring, hget, rfl⟩ := h
  exact (hbody declaring (List.mem_of_getElem? hget)).label hne

theorem literal_of_label {t : Token} (h : t.Spelled) {name : Bytes} (hw : IsLabel (name ++ ":"))
    (ht : t.written = name ∧ Literal.int64? name = none ∨ t.written = name ++ ":") :
    t.literal = name ∧ ¬t.IsInteger := by
  rw [Token.Spelled] at h
  rcases ht with ⟨ht, hname⟩ | ht
  · rw [ht, ofWord_word _ hname (not_isLabel_of_isLabel hw)] at h
    rw [h]
    exact ⟨rfl, fun ⟨v, hv⟩ => nomatch hv⟩
  · rw [ht, ofWord_name _ hw] at h
    rw [h]
    exact ⟨rfl, fun ⟨v, hv⟩ => nomatch hv⟩

/-- What the operand of a branch means by how it is written: a label with its colon, or without if
its name is no integer literal, and else the index of an instruction. -/
structure Targets (body : List BodyLine) (text : Bytes) (a : Int32) : Prop where
  label : ∀ {name k}, LabelAt body name k →
    text = name ∧ Literal.int64? name = none ∨ text = name ++ ":" → BranchesTo body name k a
  index : ∀ {v}, Literal.int64? text = some v → a.toInt = v

theorem Says.targets {body : List BodyLine} (hbody : ∀ line ∈ body, line.Spelled)
    {line : BodyLine} (hline : line.Spelled) {i : Instruction} (h : Says body line i)
    (hi : i.op.isBranch = true) : ∃ t, line.operands = [t] ∧ Targets body t.written i.a := by
  obtain ⟨t, hoperands, hlabel⟩ := h.branch hi
  have ht : t.Spelled := hline.operands t (hoperands ▸ List.mem_singleton_self t)
  refine ⟨t, hoperands, fun {name k} hk htext => ?_, fun {v} hv => ?_⟩
  · obtain ⟨hliteral, hnot⟩ := literal_of_label ht (hk.isLabel hbody) htext
    obtain ⟨k', hk'⟩ := hlabel hnot
    rw [hliteral] at hk'
    rwa [hk'.once k hk]
  · have hkind : t.kind = .integer v := by
      rw [ht, ofWord_integer _ hv]
    exact h.first (h.isInvoke_of_isBranch hi) (by rw [hoperands]; rfl) hkind

/-- The labels of a method are the ones that a branch can name, and the branches in its code go
where their operands say. -/
structure BranchesAsWritten (m : MethodDecl) (d : MethodDef) : Prop where
  nameable : ∀ {name k}, LabelAt m.body.toList name k →
    ∀ pos, Token.ofWord pos (name ++ ":") = ⟨.label, name, pos⟩
  branches : ∃ code, d.code = some code ∧ List.Forall₂ (fun line i => i.op.isBranch = true →
    ∃ t, line.operands = [t] ∧ Targets m.body.toList t.written i.a)
    (instructionLines m.body.toList) code

theorem TranslatesMethod.branchesAsWritten {owner : Bytes} {pool : Pool} {m : MethodDecl}
    {d : MethodDef} {code : List Instruction} (h : TranslatesMethod owner pool m code)
    (hcode : d.code = some code) (hspelled : ∀ line ∈ m.body, line.Spelled) :
    BranchesAsWritten m d := by
  have hbody : ∀ line ∈ m.body.toList, line.Spelled :=
    fun line hline => hspelled line (Array.mem_toList_iff.1 hline)
  constructor
  case nameable => exact fun hk pos => ofWord_name pos (hk.isLabel hbody)
  case branches =>
    have hlines := (List.forall₂_and_left ..).2
      ⟨fun line hline => hbody line (List.mem_of_mem_filter hline), h.lines⟩
    exact ⟨code, hcode,
      hlines.imp fun line i ⟨hline, n, hn, hi⟩ => (hi.faithful h.once hn).targets hbody hline⟩

/-- In an accepted source a branch goes to the label that its operand names. A name that is an
integer literal has to be written with its colon, as it is an instruction index without. -/
theorem assemble_branches {source : Bytes} {defs : List ClassDef} (h : assemble source = .ok defs) :
    ∃ classes, parse source = .ok classes ∧
      List.Forall₂ (fun c d => List.Forall₂ BranchesAsWritten c.methods.toList d.methodList)
        classes defs := by
  obtain ⟨classes, hparse, htranslated⟩ := translated_of_assemble h
  refine ⟨classes, hparse, htranslated.imp fun c d ⟨hspelled, b, hd⟩ => ?_⟩
  have hmethods := (List.forall₂_and_left ..).2
    ⟨fun m hm => hspelled m (Array.mem_toList_iff.1 hm), hd.methods⟩
  exact hmethods.imp fun m md ⟨hbody, code, hcode, hm⟩ => hm.branchesAsWritten hcode hbody

/-- Labels whose names are a number and a word, and branches that are written with them. -/
def numbered : Bytes :=
  Bytes.join "\n"
    ["class A", "method static m ()V", "return", "return", "1:", "top: goto 1", "goto 1:",
      "goto top", "end", "end"]

theorem assemble_branches_numbered :
    ∃ defs classes, assemble numbered = .ok defs ∧ parse numbered = .ok classes ∧
      List.Forall₂ (fun c d => List.Forall₂ BranchesAsWritten c.methods.toList d.methodList)
        classes defs ∧
      ∃ c ∈ classes[0]?, ∃ m ∈ c.methods.toList[0]?, ∃ d ∈ defs[0]?, ∃ md ∈ d.methodList[0]?,
        ∃ code ∈ md.code, ∃ line ∈ (instructionLines m.body.toList)[3]?, ∃ i ∈ code[3]?,
          line.operands.map Token.written = [("1:" : Bytes)] ∧
            BranchesTo m.body.toList "1" 2 i.a := by
  have hsource : ∃ classes ∈ (parse numbered).toOption, ∃ c ∈ classes[0]?,
      ∃ m ∈ c.methods.toList[0]?, ∃ line ∈ (instructionLines m.body.toList)[3]?,
        line.operands.map Token.written = [("1:" : Bytes)] ∧ LabelAt m.body.toList "1" 2 := by
    decide +kernel
  have hcode : ∃ defs ∈ (assemble numbered).toOption, ∃ d ∈ defs[0]?, ∃ md ∈ d.methodList[0]?,
      ∃ code ∈ md.code, ∃ i ∈ code[3]?, i.op.isBranch = true := by decide +kernel
  obtain ⟨classes, hparse, c, hc, m, hm, line, hline, hwritten, hlabel⟩ := hsource
  obtain ⟨defs, hdefs, d, hd, md, hmd, code, hcode, i, hi, hbranch⟩ := hcode
  have hparse := eq_ok_of_mem_toOption hparse
  have hdefs := eq_ok_of_mem_toOption hdefs
  obtain ⟨classes', hparse', hbranches⟩ := assemble_branches hdefs
  cases hparse.symm.trans hparse'
  refine ⟨defs, classes, hdefs, hparse, hbranches, c, hc, m, hm, d, hd, md, hmd, code, hcode, line,
    hline, i, hi, hwritten, ?_⟩
  have hmethods := forall₂_getElem? hbranches hc hd
  obtain ⟨code', hcode', hlines⟩ := (forall₂_getElem? hmethods hm hmd).branches
  cases hcode.symm.trans hcode'
  obtain ⟨t, ht, htargets⟩ := forall₂_getElem? hlines hline hi hbranch
  rw [ht] at hwritten
  exact htargets.label hlabel (.inr (List.singleton_inj.1 hwritten))

/-- A branch with the name of a label does not always go there: the one to `1` goes to instruction
1, and the label has position 2. -/
theorem numbered_label_missed :
    ∃ classes defs, parse numbered = .ok classes ∧ assemble numbered = .ok defs ∧
      ¬List.Forall₂ (fun c d => List.Forall₂ (fun m md => ∃ code, md.code = some code ∧
        List.Forall₂ (fun line i => i.op.isBranch = true → ∀ t k, line.operands = [t] →
          LabelAt m.body.toList t.written k → i.a = Int32.ofNat (position m.body.toList k))
        (instructionLines m.body.toList) code) c.methods.toList d.methodList) classes defs := by
  have hsource : ∃ classes : List ClassDecl, classes ∈ (parse numbered).toOption ∧
      ∃ c : ClassDecl, c ∈ classes[0]? ∧ ∃ m : MethodDecl, m ∈ c.methods.toList[0]? ∧
      ∃ line : BodyLine, line ∈ (instructionLines m.body.toList)[2]? ∧
      ∃ t ∈ line.operands, line.operands = [t] ∧ LabelAt m.body.toList t.written 2 ∧
        position m.body.toList 2 = 2 := by decide +kernel
  have hcode : ∃ defs : List ClassDef, defs ∈ (assemble numbered).toOption ∧
      ∃ d : ClassDef, d ∈ defs[0]? ∧ ∃ md : MethodDef, md ∈ d.methodList[0]? ∧
      ∃ code : List Instruction, code ∈ md.code ∧ ∃ i : Instruction, i ∈ code[2]? ∧
        i.op.isBranch = true ∧ i.a = 1 := by decide +kernel
  obtain ⟨classes, hparse, c, hc, m, hm, line, hline, t, -, ht, hlabel, hposition⟩ := hsource
  obtain ⟨defs, hdefs, d, hd, md, hmd, code, hcode, i, hi, hbranch, ha⟩ := hcode
  refine ⟨classes, defs, eq_ok_of_mem_toOption hparse, eq_ok_of_mem_toOption hdefs, fun hall => ?_⟩
  obtain ⟨code', hcode', hlines⟩ := forall₂_getElem? (forall₂_getElem? hall hc hd) hm hmd
  cases hcode.symm.trans hcode'
  have htarget := forall₂_getElem? hlines hline hi hbranch t 2 ht hlabel
  rw [ha, hposition] at htarget
  cases htarget

end MiniJvm.Assembly
