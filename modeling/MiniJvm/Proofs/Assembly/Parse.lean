import Mathlib
import MiniJvm.Assembly.Parser

/-!
# What parsing gives

Classes that are parsed without a problem have names, and nothing in them is larger than the
source (`parse_within`).
-/

namespace MiniJvm.Assembly

/-! ## Tokens -/

/-- The bytes of the word that a mode is in the middle of. -/
def Mode.length : Mode → Nat
  | .word _ reversed => reversed.length
  | _ => 0

/-- A word has begun with a byte at least. -/
def Mode.Begun : Mode → Prop
  | .word _ reversed => reversed ≠ []
  | _ => True

/-- A token of at most `n` bytes; a word has one at least. -/
structure Token.Within (n : Nat) (t : Token) : Prop where
  length : t.literal.length ≤ n
  word : t.kind = .word → t.literal ≠ []

theorem Token.Within.mono {n n' : Nat} {t : Token} (h : t.Within n) (hn : n ≤ n') :
    t.Within n' :=
  ⟨h.length.trans hn, h.word⟩

theorem within_ofWord (pos : Position) {w : Bytes} (hw : w ≠ []) :
    (Token.ofWord pos w).Within w.length := by
  unfold Token.ofWord
  split
  · exact ⟨Nat.le_refl _, nofun⟩
  · split
    · refine ⟨?_, nofun⟩
      rw [List.length_dropLast]
      exact Nat.sub_le ..
    · exact ⟨Nat.le_refl _, fun _ => hw⟩

theorem within_pending {mode : Mode} (hmode : mode.Begun) :
    ∀ t ∈ mode.pending, t.Within mode.length := by
  cases mode with
  | between | comment => exact nofun
  | word start reversed =>
    intro t ht
    cases List.mem_singleton.1 ht
    have hne : reversed.reverse ≠ [] := mt List.reverse_eq_nil_iff.1 hmode
    have hw := within_ofWord start hne
    rwa [List.length_reverse] at hw

theorem tokensFrom_within (mode : Mode) (hmode : mode.Begun) (p : Position) (source : Bytes) :
    ∀ t ∈ tokensFrom mode p source, t.Within (mode.length + source.length) := by
  induction source generalizing mode p with
  | nil =>
    intro t ht
    rw [tokensFrom, List.mem_append, List.mem_singleton] at ht
    rcases ht with ht | rfl
    · exact within_pending hmode t ht
    · exact ⟨Nat.zero_le _, nofun⟩
  | cons b rest ih =>
    intro t ht
    rw [List.length_cons]
    have hfresh : ∀ (mode : Mode) {p : Position}, mode.Begun → mode.length = 0 →
        ∀ t ∈ tokensFrom mode p rest, t.Within rest.length := by
      intro mode p hbegun hzero t ht
      have hw := ih mode hbegun p t ht
      rwa [hzero, Nat.zero_add] at hw
    unfold tokensFrom at ht
    split at ht
    · rw [List.mem_append, List.mem_cons] at ht
      rcases ht with ht | rfl | ht
      · exact (within_pending hmode t ht).mono (by omega)
      · exact ⟨by simp only [Token.newline]; change 1 ≤ _; omega, nofun⟩
      · exact (hfresh .between trivial rfl t ht).mono (by omega)
    · split at ht
      · exact (hfresh .comment trivial rfl t ht).mono (by omega)
      · split at ht
        · exact (hfresh .between trivial rfl t ht).mono (by omega)
        · split at ht
          · exact (hfresh .comment trivial rfl t ht).mono (by omega)
          · exact (ih (.word p [b]) nofun _ t ht).mono
              (by simp only [Mode.length, List.length_cons, List.length_nil]; omega)
      · rename_i start reversed
        split at ht
        · rcases List.mem_cons.1 ht with rfl | ht
          · exact (within_pending hmode _ (List.mem_singleton_self _)).mono (by omega)
          · exact (hfresh .between trivial rfl t ht).mono (by omega)
        · exact (ih (.word start (b :: reversed)) nofun _ t ht).mono
            (by simp only [Mode.length, List.length_cons]; omega)

/-- Every token but the last has a byte of its own. -/
theorem length_tokensFrom (mode : Mode) (p : Position) (source : Bytes) :
    (tokensFrom mode p source).length ≤ source.length + 1 + mode.pending.length := by
  induction source generalizing mode p with
  | nil => simp [tokensFrom]
  | cons b rest ih =>
    have hbetween : ∀ p, (tokensFrom .between p rest).length ≤ rest.length + 1 := ih .between
    have hcomment : ∀ p, (tokensFrom .comment p rest).length ≤ rest.length + 1 := ih .comment
    have hword : ∀ start reversed p,
        (tokensFrom (.word start reversed) p rest).length ≤ rest.length + 1 + 1 :=
      fun start reversed => ih (.word start reversed)
    unfold tokensFrom
    rw [List.length_cons]
    split
    · have := hbetween p.nextLine
      rw [List.length_append, List.length_cons]
      omega
    · split
      · exact (hcomment _).trans (by omega)
      · split
        · exact (hbetween _).trans (by omega)
        · split
          · exact (hcomment _).trans (by omega)
          · exact (hword ..).trans (by omega)
      · rename_i start reversed
        have hpending : (Mode.word start reversed).pending.length = 1 := rfl
        split
        · have := hbetween p.next
          rw [List.length_cons]
          omega
        · exact (hword ..).trans (by omega)

theorem lines_spec (tokens : List Token) :
    (lines tokens).length ≤ tokens.length + 1 ∧ ∀ l ∈ lines tokens, ∀ t ∈ l, t ∈ tokens := by
  induction tokens with
  | nil => exact ⟨Nat.le_refl _, by simp [lines]⟩
  | cons t rest ih =>
    obtain ⟨hlen, hmem⟩ := ih
    have hrest : ∀ l ∈ lines rest, ∀ u ∈ l, u ∈ t :: rest :=
      fun l hl u hu => List.mem_cons_of_mem _ (hmem l hl u hu)
    rw [lines, List.length_cons]
    split
    · exact ⟨by simp, by simp⟩
    · refine ⟨by rw [List.length_cons]; omega, List.forall_mem_cons.2 ⟨nofun, hrest⟩⟩
    · split
      · exact ⟨by simp, by simp⟩
      · rename_i l ls heq
        rw [heq] at hlen hrest
        obtain ⟨hl, hls⟩ := List.forall_mem_cons.1 hrest
        rw [List.length_cons] at hlen ⊢
        exact ⟨by omega, List.forall_mem_cons.2
          ⟨List.forall_mem_cons.2 ⟨List.mem_cons_self, hl⟩, hls⟩⟩

/-! ## The parser -/

/-- A method whose descriptor has at most `size` bytes and whose body has at most `n` lines. -/
structure MethodDecl.Within (size n : Nat) (m : MethodDecl) : Prop where
  descriptor : m.descriptor.length ≤ size
  body : m.body.size ≤ n

/-- A class with a name and methods of such sizes. -/
structure ClassDecl.Within (size n : Nat) (c : ClassDecl) : Prop where
  name : c.name ≠ []
  methods : ∀ m ∈ c.methods, m.Within size n

theorem MethodDecl.Within.mono {size n n' : Nat} {m : MethodDecl} (h : m.Within size n)
    (hn : n ≤ n') : m.Within size n' :=
  ⟨h.descriptor, h.body.trans hn⟩

theorem ClassDecl.Within.mono {size n n' : Nat} {c : ClassDecl} (h : c.Within size n)
    (hn : n ≤ n') : c.Within size n' :=
  ⟨h.name, fun m hm => (h.methods m hm).mono hn⟩

def Context.Within (size n : Nat) : Context → Prop
  | .top => True
  | .inClass c | .skipping c => c.Within size n
  | .inMethod c m => c.Within size n ∧ m.Within size n

theorem Context.Within.mono {size n n' : Nat} {context : Context} (h : context.Within size n)
    (hn : n ≤ n') : context.Within size n' := by
  cases context with
  | top => trivial
  | inClass c | skipping c => exact ClassDecl.Within.mono h hn
  | inMethod c m => exact ⟨h.1.mono hn, h.2.mono hn⟩

/-- What was found within `n` lines without a problem. -/
structure ParseState.Within (size n : Nat) (s : ParseState) : Prop where
  context : s.context.Within size n
  classes : ∀ c ∈ s.classes, c.Within size n

/-- From `s` to `t` problems are only added, and without a new one `good` holds. -/
structure ParseState.Leads (s t : ParseState) (good : Prop) : Prop where
  errors : s.errors.size ≤ t.errors.size
  good : t.errors.size = s.errors.size → good

namespace ParseState

variable {size n : Nat} {s t u : ParseState} {P Q : Prop}

theorem Within.mono {n' : Nat} (h : s.Within size n) (hn : n ≤ n') : s.Within size n' :=
  ⟨h.context.mono hn, fun c hc => (h.classes c hc).mono hn⟩

theorem Leads.imp (h : s.Leads t P) (hPQ : P → Q) : s.Leads t Q :=
  ⟨h.errors, fun heq => hPQ (h.good heq)⟩

theorem leads_of_lt (h : s.errors.size < t.errors.size) : s.Leads t P :=
  ⟨Nat.le_of_lt h, fun heq => absurd heq (Nat.ne_of_gt h)⟩

theorem leads_of_eq (h : t.errors = s.errors) (hP : P) : s.Leads t P :=
  ⟨Nat.le_of_eq (congrArg _ h.symm), fun _ => hP⟩

theorem lt_report (s : ParseState) (pos : Position) (problem : Problem) :
    s.errors.size < (s.report pos problem).errors.size := by
  rw [report, Array.size_push]
  exact Nat.lt_succ_self _

theorem Leads.trans (hst : s.Leads t P) (htu : t.Leads u Q) : s.Leads u (P ∧ Q) := by
  have h₁ := hst.errors
  have h₂ := htu.errors
  exact ⟨h₁.trans h₂, fun heq => ⟨hst.good (by omega), htu.good (by omega)⟩⟩

@[simp]
theorem classes_enter (context : Context) : (s.enter context).classes = s.classes :=
  rfl

theorem endOfLine_leads (rest : List Token) :
    s.Leads (s.endOfLine rest) (s.endOfLine rest = s) := by
  cases rest with
  | nil => exact leads_of_eq rfl rfl
  | cons t rest => exact leads_of_lt (lt_report ..)

theorem classHeader_within {pos : Position} {header : List Token} {c : ClassDecl}
    (h : classHeader pos header = some c) (hheader : ∀ t ∈ header, t.Within size) :
    c.Within size n := by
  unfold classHeader at h
  split at h
  · rename_i name
    split at h
    · rename_i hword
      cases h
      exact ⟨(hheader name List.mem_cons_self).word hword, nofun⟩
    · cases h
  · rename_i name keyword parent
    split at h
    · rename_i hword
      cases h
      rw [Bool.and_eq_true, Bool.and_eq_true, decide_eq_true_iff] at hword
      exact ⟨(hheader name List.mem_cons_self).word hword.1.1, nofun⟩
    · cases h
  · cases h

variable (size n)

theorem methodSizes_leads (s : ParseState) (m : MethodDecl) (sizes : List Token) :
    s.Leads (methodSizes s m sizes).1
      ((methodSizes s m sizes).1.classes = s.classes ∧
        (m.Within size n → (methodSizes s m sizes).2.Within size n)) := by
  fun_induction methodSizes s m sizes with
  | case1 s m => exact leads_of_eq rfl ⟨rfl, id⟩
  | case2 s m t => exact leads_of_lt (lt_report ..)
  | case3 s m t v rest h => exact leads_of_lt (lt_report ..)
  | case4 s m t v rest k _ _ ih =>
    exact ih.imp fun h => ⟨h.1, fun hm => h.2 ⟨hm.descriptor, hm.body⟩⟩
  | case5 s m t v rest k _ _ _ ih =>
    exact ih.imp fun h => ⟨h.1, fun hm => h.2 ⟨hm.descriptor, hm.body⟩⟩
  | case6 s m t v rest k _ _ _ ih =>
    exact leads_of_lt (Nat.lt_of_lt_of_le (lt_report ..) ih.errors)

theorem methodHeader_leads (s : ParseState) (c : ClassDecl) (pos : Position)
    (header : List Token) :
    s.Leads (methodHeader s c pos header)
      ((∀ c ∈ s.classes, c.Within size n) → c.Within size n →
        (∀ t ∈ header, t.Within size) → (methodHeader s c pos header).Within size n) := by
  unfold methodHeader
  split
  rename_i static rest heq
  have hrest : (∀ t ∈ header, t.Within size) → ∀ t ∈ rest, t.Within size := by
    intro hheader
    split at heq
    · split at heq
      · cases heq
        exact (List.forall_mem_cons.1 hheader).2
      · cases heq
        exact hheader
    · cases heq
      exact hheader
  dsimp only
  split
  · rename_i name descriptor sizes
    split
    · have hm := methodSizes_leads size n s
        ⟨pos, name.literal, descriptor.literal, static, none, none, #[]⟩ sizes
      refine ⟨hm.errors, fun heq hs hc hheader => ?_⟩
      obtain ⟨hclasses, hm⟩ := hm.good heq
      have hd := (hrest hheader descriptor (by simp)).length
      exact ⟨⟨hc, hm ⟨hd, Nat.zero_le _⟩⟩, fun c' hc' => hs c' (hclasses ▸ hc')⟩
    · exact leads_of_lt (lt_report ..)
  · exact leads_of_lt (lt_report ..)

theorem bodyLine_leads (s : ParseState) (pos : Position) (tokens : List Token) :
    s.Leads (bodyLine s pos tokens).1 ((bodyLine s pos tokens).1 = s) := by
  unfold bodyLine
  split
  rename_i label rest _
  split
  · exact leads_of_eq rfl rfl
  · split
    · exact leads_of_eq rfl rfl
    · exact leads_of_lt (lt_report ..)

theorem topLine_leads (s : ParseState) (t : Token) (rest : List Token) :
    s.Leads (s.topLine t rest)
      (s.Within size n → (∀ t ∈ rest, t.Within size) → (s.topLine t rest).Within size n) := by
  unfold topLine
  split
  · split
    · rename_i hc
      exact leads_of_eq rfl fun hs hrest => ⟨classHeader_within hc hrest, hs.classes⟩
    · exact leads_of_lt (lt_report ..)
  · exact leads_of_lt (lt_report ..)

theorem classLine_leads (s : ParseState) (c : ClassDecl) (t : Token) (rest : List Token) :
    s.Leads (s.classLine c t rest)
      ((∀ c ∈ s.classes, c.Within size n) → c.Within size n →
        (∀ t ∈ rest, t.Within size) → (s.classLine c t rest).Within size n) := by
  unfold classLine
  split
  · refine ⟨(endOfLine_leads rest).errors, fun _ hs hc _ => ⟨trivial, fun c' hc' => ?_⟩⟩
    rcases Array.mem_push.1 hc' with hc' | rfl
    · exact hs c' hc'
    · exact hc
  · split
    · exact methodHeader_leads size n s c _ rest
    · exact leads_of_lt (lt_report ..)

theorem methodLine_leads (s : ParseState) (c : ClassDecl) (m : MethodDecl) (t : Token)
    (rest : List Token) :
    s.Leads (s.methodLine c m t rest)
      ((∀ c ∈ s.classes, c.Within size n) → c.Within size n → m.Within size n →
        (s.methodLine c m t rest).Within size (n + 1)) := by
  unfold methodLine
  split
  · refine ⟨(endOfLine_leads rest).errors, fun heq hs hc hm => ?_⟩
    refine Within.mono ⟨⟨hc.name, fun m' hm' => ?_⟩, ?_⟩ n.le_succ
    · rcases Array.mem_push.1 hm' with hm' | rfl
      · exact hc.methods m' hm'
      · exact hm
    · rw [(endOfLine_leads rest).good heq]
      exact hs
  · obtain ⟨herrors, hgood⟩ := bodyLine_leads s t.pos (t :: rest)
    refine ⟨herrors, fun heq hs hc hm => ⟨⟨hc.mono n.le_succ, hm.descriptor, ?_⟩, ?_⟩⟩
    · rw [Array.size_push]
      exact Nat.succ_le_succ hm.body
    · rw [classes_enter, hgood heq]
      exact fun c' hc' => (hs c' hc').mono n.le_succ

theorem skippedLine_leads (s : ParseState) (c : ClassDecl) (t : Token) (rest : List Token) :
    s.Leads (s.skippedLine c t rest)
      ((∀ c ∈ s.classes, c.Within size n) → c.Within size n →
        (s.skippedLine c t rest).Within size n) := by
  unfold skippedLine
  split
  · refine ⟨(endOfLine_leads rest).errors, fun heq hs hc => ⟨hc, ?_⟩⟩
    rw [classes_enter, (endOfLine_leads rest).good heq]
    exact hs
  · exact leads_of_eq rfl fun hs hc => ⟨hc, hs⟩

theorem line_leads (s : ParseState) (tokens : List Token) :
    s.Leads (s.line tokens)
      (s.Within size n → (∀ t ∈ tokens, t.Within size) →
        (s.line tokens).Within size (n + 1)) := by
  unfold line
  split
  · exact leads_of_eq rfl fun hs _ => hs.mono n.le_succ
  · rename_i t rest
    split
    · exact (topLine_leads size n s t rest).imp fun h hs htokens =>
        (h hs (List.forall_mem_cons.1 htokens).2).mono n.le_succ
    · rename_i c hcontext
      have h := classLine_leads size n (s.enter .top) c t rest
      refine ⟨h.errors, fun heq hs htokens => ?_⟩
      have hc := hs.context
      rw [hcontext] at hc
      exact (h.good heq hs.classes hc (List.forall_mem_cons.1 htokens).2).mono n.le_succ
    · rename_i c m hcontext
      have h := methodLine_leads size n (s.enter .top) c m t rest
      refine ⟨h.errors, fun heq hs _ => ?_⟩
      have hc := hs.context
      rw [hcontext] at hc
      exact h.good heq hs.classes hc.1 hc.2
    · rename_i c hcontext
      have h := skippedLine_leads size n (s.enter .top) c t rest
      refine ⟨h.errors, fun heq hs _ => ?_⟩
      have hc := hs.context
      rw [hcontext] at hc
      exact (h.good heq hs.classes hc).mono n.le_succ

theorem foldl_line_leads (s : ParseState) (ls : List (List Token)) :
    s.Leads (ls.foldl line s)
      (s.Within size n → (∀ l ∈ ls, ∀ t ∈ l, t.Within size) →
        (ls.foldl line s).Within size (n + ls.length)) := by
  induction ls generalizing s n with
  | nil => exact leads_of_eq rfl fun hs _ => hs
  | cons l ls ih =>
    have h := (line_leads size n s l).trans (ih (n + 1) (s.line l))
    refine ⟨h.errors, fun heq hs hls => ?_⟩
    obtain ⟨hline, hrest⟩ := h.good heq
    obtain ⟨hl, hls⟩ := List.forall_mem_cons.1 hls
    have hw := hrest (hline hs hl) hls
    rwa [Nat.add_assoc, Nat.add_comm 1] at hw

theorem close_leads : s.Leads s.close (s.close = s) := by
  unfold close
  split
  · exact leads_of_eq rfl rfl
  · exact leads_of_lt (lt_report ..)
  · exact leads_of_lt (lt_report ..)
  · exact leads_of_lt (Nat.lt_trans (lt_report ..) (lt_report ..))

end ParseState

/-- Nothing in what is parsed is larger than the source. -/
theorem parse_within {source : Bytes} {classes : List ClassDecl}
    (h : parse source = .ok classes) :
    ∀ c ∈ classes, c.Within source.length (source.length + 2) := by
  have htokens : ∀ t ∈ tokenize source, t.Within source.length := by
    have hw : ∀ t ∈ tokenize source, t.Within (0 + source.length) :=
      tokensFrom_within .between trivial .start source
    rwa [Nat.zero_add] at hw
  have hlength : (tokenize source).length ≤ source.length + 1 :=
    length_tokensFrom .between .start source
  obtain ⟨hlines, hmem⟩ := lines_spec (tokenize source)
  have hleads := (ParseState.foldl_line_leads source.length 0 .start
    (lines (tokenize source))).trans ParseState.close_leads
  unfold parse parseRecovering at h
  dsimp only at h
  split at h
  · rename_i hempty
    cases h
    have hsize := Array.isEmpty_iff_size_eq_zero.1 hempty
    obtain ⟨hw, hclose⟩ := hleads.good hsize
    rw [hclose]
    intro c hc
    have hw := hw ⟨trivial, nofun⟩ fun l hl t ht => htokens t (hmem l hl t ht)
    exact (hw.classes c (Array.mem_toList_iff.1 hc)).mono (by omega)
  · cases h

end MiniJvm.Assembly
