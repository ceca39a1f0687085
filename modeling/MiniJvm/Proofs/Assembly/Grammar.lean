import Mathlib
import MiniJvm.Proofs.Assembly.Parse

/-!
# The grammar of assembly source

A file is a sequence of classes, a class a header line, methods and a line `end`, and a method a
header line, body lines and a line `end`; lines without tokens do not count. A source is parsed
without a problem exactly when its lines are a file of this grammar, and then into the tree of its
phrases (`parse_eq_ok_iff`).

The parser has no stack of phrases but a context, so the grammar is first turned into what may
follow in each context (`Rest`). A line of a file is a step of the parser (`Step`), and every other
line is a problem.
-/

namespace MiniJvm.Assembly

/-! ## Phrases -/

namespace Grammar

/-- Phrases one after another. -/
inductive Many {β : Type} (phrase : List (List Token) → β → Prop) :
    List (List Token) → List β → Prop where
  | nil : Many phrase [] []
  | cons {ls rest : List (List Token)} {b : β} {bs : List β} : phrase ls b →
      Many phrase rest bs → Many phrase (ls ++ rest) (b :: bs)

/-- The line `end`. -/
inductive Close : List Token → Prop where
  | mk {keyword : Token} : keyword.isWord "end" → Close [keyword]

/-- A size that a method header gives. -/
inductive SizeClause where
  | stack (n : Nat)
  | locals (n : Nat)
  deriving DecidableEq, Repr

def SizeClause.stack? : SizeClause → Option Nat
  | .stack n => some n
  | .locals _ => none

def SizeClause.locals? : SizeClause → Option Nat
  | .locals n => some n
  | .stack _ => none

/-- The sizes at the end of a method header, each a word and a number of 16 bits. -/
inductive Sizes : List Token → List SizeClause → Prop where
  | nil : Sizes [] []
  | stack {keyword value : Token} {n : Nat} {rest : List Token} {clauses : List SizeClause} :
      keyword.isWord "stack" → value.kind = .integer n → n ≤ 65535 → Sizes rest clauses →
      Sizes (keyword :: value :: rest) (.stack n :: clauses)
  | locals {keyword value : Token} {n : Nat} {rest : List Token} {clauses : List SizeClause} :
      keyword.isWord "locals" → value.kind = .integer n → n ≤ 65535 → Sizes rest clauses →
      Sizes (keyword :: value :: rest) (.locals n :: clauses)

/-- A method without its body. Of several sizes of a kind the last one counts. -/
def declared (keyword name descriptor : Token) (static : Bool) (clauses : List SizeClause) :
    MethodDecl :=
  { pos := keyword.pos, name := name.literal, descriptor := descriptor.literal, static
    maxStack := (clauses.filterMap SizeClause.stack?).getLast?
    maxLocals := (clauses.filterMap SizeClause.locals?).getLast?
    body := #[] }

/-- The header of a method. A word `static` behind `method` is never a name. -/
inductive MethodHeader : List Token → MethodDecl → Prop where
  | static {keyword flag name descriptor : Token} {sizes : List Token}
      {clauses : List SizeClause} : keyword.isWord "method" → flag.isWord "static" →
      name.kind = .word → descriptor.kind = .word → Sizes sizes clauses →
      MethodHeader (keyword :: flag :: name :: descriptor :: sizes)
        (declared keyword name descriptor true clauses)
  | plain {keyword name descriptor : Token} {sizes : List Token} {clauses : List SizeClause} :
      keyword.isWord "method" → name.isWord "static" = false → name.kind = .word →
      descriptor.kind = .word → Sizes sizes clauses →
      MethodHeader (keyword :: name :: descriptor :: sizes)
        (declared keyword name descriptor false clauses)

theorem MethodHeader.body_eq {l : List Token} {m : MethodDecl} (h : MethodHeader l m) :
    m.body = #[] := by
  cases h <;> rfl

/-- A line of a method body. -/
inductive BodyPhrase : List Token → BodyLine → Prop where
  | label {label : Token} : label.kind = .label →
      BodyPhrase [label] ⟨label.pos, label.literal, [], []⟩
  | plain {mnemonic : Token} {operands : List Token} : mnemonic.kind = .word →
      mnemonic.isWord "end" = false →
      BodyPhrase (mnemonic :: operands) ⟨mnemonic.pos, [], mnemonic.literal, operands⟩
  | labelled {label mnemonic : Token} {operands : List Token} : label.kind = .label →
      mnemonic.kind = .word →
      BodyPhrase (label :: mnemonic :: operands)
        ⟨label.pos, label.literal, mnemonic.literal, operands⟩

inductive MethodPhrase : List (List Token) → MethodDecl → Prop where
  | mk {header close : List Token} {body : List (List Token)} {m : MethodDecl}
      {lines : List BodyLine} : MethodHeader header m → List.Forall₂ BodyPhrase body lines →
      Close close → MethodPhrase (header :: (body ++ [close])) { m with body := lines.toArray }

/-- The header of a class; any word is a name. -/
inductive ClassHeader : List Token → ClassDecl → Prop where
  | plain {keyword name : Token} : keyword.isWord "class" → name.kind = .word →
      ClassHeader [keyword, name] ⟨keyword.pos, name.literal, [], #[]⟩
  | extending {keyword name link parent : Token} : keyword.isWord "class" → name.kind = .word →
      link.isWord "extends" → parent.kind = .word →
      ClassHeader [keyword, name, link, parent] ⟨keyword.pos, name.literal, parent.literal, #[]⟩

theorem ClassHeader.methods_eq {l : List Token} {c : ClassDecl} (h : ClassHeader l c) :
    c.methods = #[] := by
  cases h <;> rfl

inductive ClassPhrase : List (List Token) → ClassDecl → Prop where
  | mk {header close : List Token} {methods : List (List Token)} {c : ClassDecl}
      {ms : List MethodDecl} : ClassHeader header c → Many MethodPhrase methods ms → Close close →
      ClassPhrase (header :: (methods ++ [close])) { c with methods := ms.toArray }

def File : List (List Token) → List ClassDecl → Prop := Many ClassPhrase

end Grammar

open Grammar

/-! ## Steps -/

/-- A line that has its place in a context, the context after it and the class that it ends. -/
inductive Step : Context → List Token → Context → List ClassDecl → Prop where
  | openClass {l : List Token} {c : ClassDecl} : ClassHeader l c → Step .top l (.inClass c) []
  | closeClass {l : List Token} {c : ClassDecl} : Close l → Step (.inClass c) l .top [c]
  | openMethod {l : List Token} {c : ClassDecl} {m : MethodDecl} : MethodHeader l m →
      Step (.inClass c) l (.inMethod c m) []
  | bodyLine {l : List Token} {c : ClassDecl} {m : MethodDecl} {line : BodyLine} :
      BodyPhrase l line →
      Step (.inMethod c m) l (.inMethod c { m with body := m.body.push line }) []
  | closeMethod {l : List Token} {c : ClassDecl} {m : MethodDecl} : Close l →
      Step (.inMethod c m) l (.inClass { c with methods := c.methods.push m }) []

section Words

variable {t : Token} {v w : Bytes}

theorem Token.isWord_iff : t.isWord w = true ↔ t.kind = .word ∧ t.literal = w := by
  rw [Token.isWord, Bool.and_eq_true, decide_eq_true_iff, beq_iff_eq]

/-- A token is one word only. -/
theorem Token.not_isWord (h : t.isWord w = true) (hne : w ≠ v) : ¬t.isWord v = true := by
  rw [isWord_iff] at h ⊢
  exact fun h' => hne (h.2.symm.trans h'.2)

theorem Token.not_isWord_of_kind (h : t.kind ≠ .word) : ¬t.isWord w = true :=
  fun hw => h (Token.isWord_iff.1 hw).1

end Words

/-! ### Sizes of methods -/

theorem size?_eq_some_iff {t : Token} {n : Nat} :
    size? t = some n ↔ t.kind = .integer n ∧ n ≤ 65535 := by
  unfold size?
  constructor
  · intro h
    split at h
    · rename_i v hkind
      split at h
      · rename_i hrange
        cases h
        rw [hkind, Int.toNat_of_nonneg hrange.1]
        exact ⟨rfl, by omega⟩
      · cases h
    · cases h
  · rintro ⟨hkind, hn⟩
    rw [hkind]
    dsimp only
    rw [if_pos (by omega), Int.toNat_natCast]

/-- The method with the sizes of clauses, the last of each kind. -/
def MethodDecl.sizedBy (m : MethodDecl) (clauses : List SizeClause) : MethodDecl :=
  { m with
    maxStack := (clauses.filterMap SizeClause.stack?).getLast?.or m.maxStack
    maxLocals := (clauses.filterMap SizeClause.locals?).getLast?.or m.maxLocals }

theorem sizedBy_stack (m : MethodDecl) (n : Nat) (clauses : List SizeClause) :
    m.sizedBy (.stack n :: clauses) = MethodDecl.sizedBy { m with maxStack := some n } clauses := by
  simp [MethodDecl.sizedBy, SizeClause.stack?, SizeClause.locals?, List.getLast?_cons]

theorem sizedBy_locals (m : MethodDecl) (n : Nat) (clauses : List SizeClause) :
    m.sizedBy (.locals n :: clauses) =
      MethodDecl.sizedBy { m with maxLocals := some n } clauses := by
  simp [MethodDecl.sizedBy, SizeClause.stack?, SizeClause.locals?, List.getLast?_cons]

theorem methodSizes_of_sizes {sizes : List Token} {clauses : List SizeClause}
    (h : Sizes sizes clauses) (s : ParseState) (m : MethodDecl) :
    methodSizes s m sizes = (s, m.sizedBy clauses) := by
  induction h generalizing m with
  | nil => rfl
  | stack hword hvalue hn _ ih =>
    rw [methodSizes, size?_eq_some_iff.2 ⟨hvalue, hn⟩]
    dsimp only
    rw [if_pos hword, ih, sizedBy_stack]
  | locals hword hvalue hn _ ih =>
    rw [methodSizes, size?_eq_some_iff.2 ⟨hvalue, hn⟩]
    dsimp only
    rw [if_neg (Token.not_isWord hword (by decide)), if_pos hword, ih, sizedBy_locals]

theorem sizes_of_methodSizes {s : ParseState} {m : MethodDecl} {sizes : List Token}
    (h : (methodSizes s m sizes).1.errors.size = s.errors.size) :
    ∃ clauses, Sizes sizes clauses := by
  fun_induction methodSizes s m sizes with
  | case1 s m => exact ⟨[], .nil⟩
  | case2 s m t => exact absurd h (Nat.ne_of_gt (ParseState.lt_report ..))
  | case3 s m t v rest hnone => exact absurd h (Nat.ne_of_gt (ParseState.lt_report ..))
  | case4 s m t v rest n hsize hword ih =>
    obtain ⟨clauses, hrest⟩ := ih h
    have hv := size?_eq_some_iff.1 hsize
    exact ⟨_, .stack hword hv.1 hv.2 hrest⟩
  | case5 s m t v rest n hsize _ hword ih =>
    obtain ⟨clauses, hrest⟩ := ih h
    have hv := size?_eq_some_iff.1 hsize
    exact ⟨_, .locals hword hv.1 hv.2 hrest⟩
  | case6 s m t v rest n hsize _ _ ih =>
    have hle := (ParseState.methodSizes_leads 0 0 (s.report t.pos (.unknownAttribute t)) m
      rest).errors
    have hlt := ParseState.lt_report s t.pos (.unknownAttribute t)
    omega

/-! ### Headers and body lines -/

theorem classHeader_iff {keyword : Token} {rest : List Token} {c : ClassDecl} :
    ClassHeader (keyword :: rest) c ↔
      keyword.isWord "class" = true ∧ classHeader keyword.pos rest = some c := by
  constructor
  · rintro (⟨hclass, hname⟩ | ⟨hclass, hname, hlink, hparent⟩)
    · exact ⟨hclass, by simp [classHeader, hname]⟩
    · exact ⟨hclass, by simp [classHeader, hname, hlink, hparent]⟩
  · rintro ⟨hclass, hheader⟩
    unfold classHeader at hheader
    split at hheader
    · split at hheader
      · rename_i hname
        cases hheader
        exact .plain hclass hname
      · cases hheader
    · split at hheader
      · rename_i hwords
        cases hheader
        rw [Bool.and_eq_true, Bool.and_eq_true, decide_eq_true_iff, decide_eq_true_iff] at hwords
        exact .extending hclass hwords.1.1 hwords.1.2 hwords.2
      · cases hheader
    · cases hheader

theorem methodHeader_of_phrase {keyword : Token} {rest : List Token} {m : MethodDecl}
    (h : MethodHeader (keyword :: rest) m) (s : ParseState) (c : ClassDecl) :
    methodHeader s c keyword.pos rest = s.enter (.inMethod c m) := by
  cases h with
  | static _ hflag hname hdescriptor hsizes =>
    simp [methodHeader, hflag, hname, hdescriptor, methodSizes_of_sizes hsizes,
      MethodDecl.sizedBy, declared]
  | plain _ hflag hname hdescriptor hsizes =>
    simp [methodHeader, hflag, hname, hdescriptor, methodSizes_of_sizes hsizes,
      MethodDecl.sizedBy, declared]

theorem phrase_of_methodHeader {s : ParseState} {c : ClassDecl} {keyword : Token}
    {rest : List Token} (hkeyword : keyword.isWord "method" = true)
    (h : (methodHeader s c keyword.pos rest).errors.size = s.errors.size) :
    ∃ m, MethodHeader (keyword :: rest) m := by
  have hmalformed : ∀ {pos : Position},
      ((s.report pos .malformedMethodHeader).enter (.skipping c)).errors.size ≠ s.errors.size :=
    Nat.ne_of_gt (ParseState.lt_report ..)
  unfold methodHeader at h
  split at h
  rename_i static header heq
  dsimp only at h
  split at h
  · rename_i name descriptor sizes
    split at h
    · rename_i hwords
      rw [Bool.and_eq_true, decide_eq_true_iff, decide_eq_true_iff] at hwords
      obtain ⟨clauses, hsizes⟩ := sizes_of_methodSizes h
      split at heq
      · split at heq
        · rename_i hflag
          cases heq
          exact ⟨_, .static hkeyword hflag hwords.1 hwords.2 hsizes⟩
        · rename_i hflag
          cases heq
          exact ⟨_, .plain hkeyword (Bool.not_eq_true _ ▸ hflag) hwords.1 hwords.2 hsizes⟩
      · cases heq
    · exact absurd h hmalformed
  · exact absurd h hmalformed

theorem bodyLine_of_phrase {t : Token} {rest : List Token} {line : BodyLine}
    (h : BodyPhrase (t :: rest) line) :
    t.isWord "end" = false ∧ ∀ s, bodyLine s t.pos (t :: rest) = (s, line) := by
  have hlabel : ∀ {u : Token}, u.kind = .label → u.isWord "end" = false := by
    intro u hu
    rw [Bool.eq_false_iff]
    exact Token.not_isWord_of_kind (by rw [hu]; nofun)
  cases h with
  | label hkind => exact ⟨hlabel hkind, fun s => by simp [bodyLine, splitLabel, hkind]⟩
  | plain hkind hend => exact ⟨hend, fun s => by simp [bodyLine, splitLabel, hkind]⟩
  | labelled hkind hword =>
    exact ⟨hlabel hkind, fun s => by simp [bodyLine, splitLabel, hkind, hword]⟩

theorem phrase_of_bodyLine {s : ParseState} {t : Token} {rest : List Token}
    (hend : t.isWord "end" = false)
    (h : (bodyLine s t.pos (t :: rest)).1.errors.size = s.errors.size) :
    ∃ line, BodyPhrase (t :: rest) line := by
  by_cases hlabel : t.kind = .label
  · cases rest with
    | nil => exact ⟨_, .label hlabel⟩
    | cons u operands =>
      by_cases hword : u.kind = .word
      · exact ⟨_, .labelled hlabel hword⟩
      · simp only [bodyLine, splitLabel, if_pos hlabel, if_neg hword] at h
        exact absurd h (Nat.ne_of_gt (ParseState.lt_report ..))
  · by_cases hword : t.kind = .word
    · exact ⟨_, .plain hword hend⟩
    · simp only [bodyLine, splitLabel, if_neg hlabel, if_neg hword] at h
      exact absurd h (Nat.ne_of_gt (ParseState.lt_report ..))

/-! ### Lines -/

/-- A context that no problem is needed for. -/
def Context.Sound : Context → Prop
  | .skipping _ => False
  | _ => True

theorem Step.sound {now after : Context} {l : List Token} {ended : List ClassDecl}
    (h : Step now l after ended) : after.Sound := by
  cases h <;> trivial

namespace ParseState

theorem line_of_step {s : ParseState} {l : List Token} {context : Context}
    {ended : List ClassDecl} (h : Step s.context l context ended) :
    s.line l = ⟨context, s.classes ++ ended.toArray, s.errors⟩ := by
  obtain ⟨now, classes, errors⟩ := s
  cases h with
  | openClass hheader =>
    cases l with
    | nil => cases hheader
    | cons t rest =>
      obtain ⟨hclass, hheader⟩ := classHeader_iff.1 hheader
      simp [line, topLine, hclass, hheader, enter]
  | closeClass hclose =>
    obtain ⟨hend⟩ := hclose
    simp [line, classLine, hend, endOfLine, enter]
  | openMethod hheader =>
    cases l with
    | nil => cases hheader
    | cons t rest =>
      have hmethod : t.isWord "method" = true := by cases hheader <;> assumption
      have hend := Token.not_isWord hmethod (v := "end") (by decide)
      simp [line, classLine, hmethod, hend, methodHeader_of_phrase hheader, enter]
  | bodyLine hphrase =>
    cases l with
    | nil => cases hphrase
    | cons t rest =>
      obtain ⟨hend, hline⟩ := bodyLine_of_phrase hphrase
      simp [line, methodLine, hend, hline, enter]
  | closeMethod hclose =>
    obtain ⟨hend⟩ := hclose
    simp [line, methodLine, hend, endOfLine, enter]

theorem close_of_endOfLine {s : ParseState} {t : Token} {rest : List Token}
    (hend : t.isWord "end" = true) (h : (s.endOfLine rest).errors.size = s.errors.size) :
    Close (t :: rest) := by
  cases rest with
  | nil => exact .mk hend
  | cons u rest => exact absurd h (Nat.ne_of_gt (lt_report ..))

/-- A line without a problem is a step. -/
theorem step_of_line {s : ParseState} {l : List Token} (hl : l ≠ [])
    (hsound : s.context.Sound) (h : (s.line l).errors.size = s.errors.size) :
    ∃ context ended, Step s.context l context ended := by
  obtain ⟨t, rest, rfl⟩ := List.exists_cons_of_ne_nil hl
  obtain ⟨now, classes, errors⟩ := s
  cases now with
  | top =>
    simp only [line, topLine] at h
    split at h
    · rename_i hclass
      split at h
      · rename_i c hheader
        exact ⟨_, _, .openClass (classHeader_iff.2 ⟨hclass, hheader⟩)⟩
      · exact absurd h (Nat.ne_of_gt (lt_report ⟨.top, classes, errors⟩ ..))
    · exact absurd h (Nat.ne_of_gt (lt_report ⟨.top, classes, errors⟩ ..))
  | inClass c =>
    simp only [line, classLine] at h
    split at h
    · rename_i hend
      exact ⟨_, _, .closeClass (close_of_endOfLine hend h)⟩
    · split at h
      · rename_i hmethod
        obtain ⟨m, hheader⟩ := phrase_of_methodHeader hmethod h
        exact ⟨_, _, .openMethod hheader⟩
      · exact absurd h (Nat.ne_of_gt (lt_report ⟨.top, classes, errors⟩ ..))
  | inMethod c m =>
    simp only [line, methodLine] at h
    split at h
    · rename_i hend
      exact ⟨_, _, .closeMethod (close_of_endOfLine hend h)⟩
    · rename_i hend
      obtain ⟨line, hphrase⟩ := phrase_of_bodyLine (Bool.not_eq_true _ ▸ hend) h
      exact ⟨_, _, .bodyLine hphrase⟩
  | skipping c => exact hsound.elim

end ParseState

/-! ## Runs -/

/-- The lines that may follow in a context, and the classes that end in them. -/
inductive Rest : Context → List (List Token) → List ClassDecl → Prop where
  | done : Rest .top [] []
  | line {now after : Context} {l : List Token} {ls : List (List Token)}
      {ended cs : List ClassDecl} : Step now l after ended → Rest after ls cs →
      Rest now (l :: ls) (ended ++ cs)

namespace ParseState

theorem run_of_rest {s : ParseState} {ls : List (List Token)} {cs : List ClassDecl}
    (h : Rest s.context ls cs) :
    (ls.foldl line s).close = ⟨.top, s.classes ++ cs.toArray, s.errors⟩ := by
  generalize hnow : s.context = now at h
  induction h generalizing s with
  | done =>
    have hclose : s.close = s := by rw [close, hnow]
    obtain ⟨now, classes, errors⟩ := s
    subst hnow
    rw [List.foldl_nil, hclose]
    simp
  | line hstep _ ih =>
    rw [← hnow] at hstep
    rw [List.foldl_cons, line_of_step hstep, ih rfl]
    simp

/-- A run without a problem takes nothing but steps. -/
theorem rest_of_run {s : ParseState} {ls : List (List Token)} (hls : ∀ l ∈ ls, l ≠ [])
    (hsound : s.context.Sound) (h : (ls.foldl line s).close.errors.size = s.errors.size) :
    ∃ cs, Rest s.context ls cs := by
  induction ls generalizing s with
  | nil =>
    obtain ⟨now, classes, errors⟩ := s
    have hopen : ∀ {t u : ParseState} {pos : Position} {problem : Problem},
        t.errors.size ≤ u.errors.size →
        (u.report pos problem).errors.size ≠ t.errors.size :=
      fun htu => Nat.ne_of_gt (Nat.lt_of_le_of_lt htu (lt_report ..))
    cases now with
    | top => exact ⟨_, .done⟩
    | inClass c | skipping c =>
      exact absurd h (hopen (t := ⟨.top, classes, errors⟩) (Nat.le_refl _))
    | inMethod c m =>
      exact absurd h (hopen (t := ⟨.top, classes, errors⟩) (Nat.le_of_lt (lt_report ..)))
  | cons l ls ih =>
    obtain ⟨hl, hls⟩ := List.forall_mem_cons.1 hls
    rw [List.foldl_cons] at h
    have hfirst := (line_leads 0 0 s l).errors
    have hrest := ((foldl_line_leads 0 0 (s.line l) ls).trans close_leads).errors
    obtain ⟨after, ended, hstep⟩ := step_of_line hl hsound (by omega)
    have hline := line_of_step hstep
    rw [hline] at h
    obtain ⟨cs, hcs⟩ := ih hls hstep.sound h
    exact ⟨_, .line hstep hcs⟩

theorem foldl_line_filter (s : ParseState) (ls : List (List Token)) :
    (ls.filter (!·.isEmpty)).foldl line s = ls.foldl line s := by
  rw [List.foldl_filter]
  congr 1
  funext s l
  cases l <;> rfl

end ParseState

/-! ### Phrases in a run -/

/-- What the grammar puts after a context: the end of the open phrases, and whole classes. -/
inductive Follows : Context → List (List Token) → List ClassDecl → Prop where
  | top {ls : List (List Token)} {cs : List ClassDecl} : File ls cs → Follows .top ls cs
  | inClass {c : ClassDecl} {methods rest : List (List Token)} {close : List Token}
      {ms : List MethodDecl} {cs : List ClassDecl} : Many MethodPhrase methods ms → Close close →
      File rest cs →
      Follows (.inClass c) (methods ++ close :: rest)
        ({ c with methods := c.methods ++ ms.toArray } :: cs)
  | inMethod {c : ClassDecl} {m : MethodDecl} {body rest : List (List Token)}
      {close : List Token} {lines : List BodyLine} {cs : List ClassDecl} :
      List.Forall₂ BodyPhrase body lines → Close close →
      Follows (.inClass { c with
        methods := c.methods.push { m with body := m.body ++ lines.toArray } }) rest cs →
      Follows (.inMethod c m) (body ++ close :: rest) cs

theorem follows_of_rest {now : Context} {ls : List (List Token)} {cs : List ClassDecl}
    (h : Rest now ls cs) : Follows now ls cs := by
  induction h with
  | done => exact .top .nil
  | line hstep _ ih =>
    cases hstep with
    | openClass hheader =>
      cases ih with
      | inClass hmethods hclose hfile =>
        have hclass := Many.cons (.mk hheader hmethods hclose) hfile
        rw [hheader.methods_eq, Array.empty_append]
        simpa using Follows.top hclass
    | closeClass hclose =>
      cases ih with
      | top hfile => simpa using Follows.inClass .nil hclose hfile
    | openMethod hheader =>
      cases ih with
      | inMethod hbody hend hfollows =>
        cases hfollows with
        | inClass hmethods hclose hfile =>
          have hmethod := Many.cons (.mk hheader hbody hend) hmethods
          rw [hheader.body_eq]
          simpa using Follows.inClass hmethod hclose hfile
    | bodyLine hphrase =>
      cases ih with
      | inMethod hbody hend hfollows =>
        refine .inMethod (.cons hphrase hbody) hend ?_
        simpa using hfollows
    | closeMethod hclose =>
      refine .inMethod .nil hclose ?_
      simpa using ih

theorem rest_of_body {c : ClassDecl} {m : MethodDecl} {body ls : List (List Token)}
    {lines : List BodyLine} {cs : List ClassDecl} (h : List.Forall₂ BodyPhrase body lines)
    (hrest : Rest (.inMethod c { m with body := m.body ++ lines.toArray }) ls cs) :
    Rest (.inMethod c m) (body ++ ls) cs := by
  induction h generalizing m with
  | nil => simpa using hrest
  | cons hphrase _ ih =>
    refine .line (.bodyLine hphrase) (ih ?_)
    simpa using hrest

theorem rest_of_methods {c : ClassDecl} {methods ls : List (List Token)} {ms : List MethodDecl}
    {cs : List ClassDecl} (h : Many MethodPhrase methods ms)
    (hrest : Rest (.inClass { c with methods := c.methods ++ ms.toArray }) ls cs) :
    Rest (.inClass c) (methods ++ ls) cs := by
  induction h generalizing c with
  | nil => simpa using hrest
  | cons hmethod _ ih =>
    obtain ⟨hheader, hbody, hclose⟩ := hmethod
    rw [List.cons_append, List.cons_append, List.append_assoc, List.append_assoc]
    refine .line (.openMethod hheader) (rest_of_body hbody (.line (.closeMethod hclose) (ih ?_)))
    simpa [hheader.body_eq] using hrest

theorem rest_of_file {ls : List (List Token)} {cs : List ClassDecl} (h : File ls cs) :
    Rest .top ls cs := by
  induction h with
  | nil => exact .done
  | cons hclass _ ih =>
    obtain ⟨hheader, hmethods, hclose⟩ := hclass
    rw [List.cons_append, List.append_assoc]
    refine .line (.openClass hheader) (rest_of_methods hmethods ?_)
    simpa [hheader.methods_eq] using Rest.line (.closeClass hclose) ih

/-- The lines of a source that have tokens. -/
def phrases (source : Bytes) : List (List Token) :=
  (lines (tokenize source)).filter (!·.isEmpty)

theorem parseRecovering_eq (source : Bytes) :
    parseRecovering source = ((phrases source).foldl ParseState.line .start).close := by
  rw [phrases, ParseState.foldl_line_filter, parseRecovering]

/-- The classes of a source are the ones of its phrases, and there are none when its lines are no
file. -/
theorem parse_eq_ok_iff {source : Bytes} {classes : List ClassDecl} :
    parse source = .ok classes ↔ File (phrases source) classes := by
  unfold parse
  rw [parseRecovering_eq]
  constructor
  · intro h
    dsimp only at h
    split at h
    · rename_i hempty
      cases h
      have hne : ∀ l ∈ phrases source, l ≠ [] := by
        intro l hl
        simpa using (List.mem_filter.1 hl).2
      obtain ⟨cs, hrest⟩ := ParseState.rest_of_run hne (s := .start) trivial
        (Array.isEmpty_iff_size_eq_zero.1 hempty)
      rw [ParseState.run_of_rest hrest]
      cases follows_of_rest hrest with
      | top hfile => simpa [ParseState.start] using hfile
    · cases h
  · intro h
    rw [ParseState.run_of_rest (s := .start) (rest_of_file h)]
    simp [ParseState.start]

end MiniJvm.Assembly
