import Mathlib
import MiniJvm.Proofs.Assembly.Grammar

/-!
# Parsing with a cursor

The same parser one token at a time: a cursor moves along the tokens, and each phrase is a loop of
its own. Nothing bounds the loops but their turns, and nothing keeps the cursor within the tokens,
so a loop without progress and a look past the last token both give no result. There is always a
result, with the cursor at the end of file, and it is the one of the lines (`parse_grammar`).
-/

namespace MiniJvm.Assembly

namespace Cursor

/-! ## The loops -/

/-- The token at the cursor and what the cursor is at then; it never leaves the end of file. -/
def next : List Token → Option (Token × List Token)
  | [] => none
  | t :: rest => some (t, if t.kind = .endOfFile then t :: rest else rest)

def skipNewlines : Nat → List Token → Option (List Token)
  | 0, _ => none
  | turns + 1, ts => do
    let t ← ts.head?
    if t.kind = .newline then
      let (_, ts) ← next ts
      skipNewlines turns ts
    else return ts

/-- Skips the tokens up to the line end and the line end itself. -/
def skipLine : Nat → List Token → Option (List Token)
  | 0, _ => none
  | turns + 1, ts => do
    let (t, ts) ← next ts
    if t.kind = .newline ∨ t.kind = .endOfFile then return ts
    else skipLine turns ts

/-- The tokens up to the line end, and what comes after it. -/
def restOfLine : Nat → List Token → Option (List Token × List Token)
  | 0, _ => none
  | turns + 1, ts => do
    let t ← ts.head?
    if t.kind = .newline then
      let (_, ts) ← next ts
      return ([], ts)
    else if t.kind = .endOfFile then return ([], ts)
    else
      let (t, ts) ← next ts
      let (line, ts) ← restOfLine turns ts
      return (t :: line, ts)

/-- Skips what follows `end` in its line; a line end stays. -/
def expectLineEnd (turns : Nat) (s : ParseState) (ts : List Token) :
    Option (ParseState × List Token) := do
  let t ← ts.head?
  if t.kind = .newline ∨ t.kind = .endOfFile then return (s, ts)
  else
    let ts ← skipLine turns ts
    return (s.report t.pos (.afterEnd t), ts)

/-- Skips a method whose header makes no sense. -/
def skipBody : Nat → ParseState → List Token → Option (ParseState × List Token)
  | 0, _, _ => none
  | turns + 1, s, ts => do
    let ts ← skipNewlines (turns + 1) ts
    let (t, ts) ← next ts
    if t.kind = .endOfFile then return (s, ts)
    else if t.isWord "end" then expectLineEnd (turns + 1) s ts
    else
      let ts ← skipLine (turns + 1) ts
      skipBody turns s ts

/-- Reads the body of a method behind its header. -/
def methodBody : Nat → ParseState → MethodDecl → List Token →
    Option (ParseState × MethodDecl × List Token)
  | 0, _, _, _ => none
  | turns + 1, s, m, ts => do
    let ts ← skipNewlines (turns + 1) ts
    let t ← ts.head?
    if t.kind = .endOfFile then return (s.report m.pos (.methodWithoutEnd m.name), m, ts)
    else if t.isWord "end" then
      let (_, ts) ← next ts
      let (s, ts) ← expectLineEnd (turns + 1) s ts
      return (s, m, ts)
    else
      let (tokens, ts) ← restOfLine (turns + 1) ts
      let first ← tokens.head?
      let (s, line) := bodyLine s first.pos tokens
      methodBody turns s { m with body := m.body.push line } ts

/-- Reads a method of a class, from its first token. There is none when its header makes no
sense. -/
def method (turns : Nat) (s : ParseState) (c : ClassDecl) (ts : List Token) :
    Option (ParseState × Option MethodDecl × List Token) := do
  let (keyword, ts) ← next ts
  let (header, ts) ← restOfLine turns ts
  let s := methodHeader s c keyword.pos header
  match s.context with
  | .inMethod _ m =>
    let (s, m, ts) ← methodBody turns s m ts
    return (s, some m, ts)
  | _ =>
    let (s, ts) ← skipBody turns s ts
    return (s, none, ts)

/-- Reads the methods of a class behind its header. -/
def classBody : Nat → ParseState → ClassDecl → List Token →
    Option (ParseState × ClassDecl × List Token)
  | 0, _, _, _ => none
  | turns + 1, s, c, ts => do
    let ts ← skipNewlines (turns + 1) ts
    let t ← ts.head?
    if t.kind = .endOfFile then return (s.report c.pos (.classWithoutEnd c.name), c, ts)
    else if t.isWord "end" then
      let (_, ts) ← next ts
      let (s, ts) ← expectLineEnd (turns + 1) s ts
      return (s, c, ts)
    else if t.isWord "method" then
      let (s, m, ts) ← method (turns + 1) s c ts
      classBody turns s { c with methods := m.elim c.methods c.methods.push } ts
    else
      let ts ← skipLine (turns + 1) ts
      classBody turns (s.report t.pos (.expectedMethod t)) c ts

/-- Reads a class, from its first token. -/
def classDecl (turns : Nat) (s : ParseState) (ts : List Token) :
    Option (ParseState × ClassDecl × List Token) := do
  let (keyword, ts) ← next ts
  let (header, ts) ← restOfLine turns ts
  match classHeader keyword.pos header with
  | some c => classBody turns s c ts
  | none =>
    classBody turns (s.report keyword.pos .malformedClassHeader) ⟨keyword.pos, [], [], #[]⟩ ts

/-- Reads the classes of a source. -/
def file : Nat → ParseState → List Token → Option (ParseState × List Token)
  | 0, _, _ => none
  | turns + 1, s, ts => do
    let ts ← skipNewlines (turns + 1) ts
    let t ← ts.head?
    if t.kind = .endOfFile then return (s, ts)
    else if t.isWord "class" then
      let (s, c, ts) ← classDecl (turns + 1) s ts
      file turns { s with context := .top, classes := s.classes.push c } ts
    else
      let ts ← skipLine (turns + 1) ts
      file turns (s.report t.pos (.expectedClass t)) ts

/-! ## Tokens ahead -/

/-- Tokens with a single end of file, at their end. -/
inductive Ended : List Token → Prop where
  | stop {t : Token} : t.kind = .endOfFile → Ended [t]
  | more {t : Token} {rest : List Token} : t.kind ≠ .endOfFile → Ended rest → Ended (t :: rest)

/-- The first line of tokens, and the tokens behind it. -/
inductive Takes : List Token → List Token → List Token → Prop where
  | stop {t : Token} : t.kind = .endOfFile → Takes [t] [] [t]
  | newline {t : Token} {rest : List Token} : t.kind = .newline → Takes (t :: rest) [] rest
  | token {t : Token} {rest l ts : List Token} : t.kind ≠ .newline → t.kind ≠ .endOfFile →
      Takes rest l ts → Takes (t :: rest) (t :: l) ts

variable {turns : Nat} {ts ts' l : List Token} {t : Token}

theorem Ended.length_pos (h : Ended ts) : 0 < ts.length := by
  cases h <;> exact Nat.succ_pos _

theorem Ended.tail (h : Ended (t :: ts)) (ht : t.kind ≠ .endOfFile) : Ended ts := by
  cases h with
  | stop hstop => exact absurd hstop ht
  | more _ hrest => exact hrest

theorem Ended.stop_iff (h : Ended (t :: ts)) (ht : t.kind = .endOfFile) : ts = [] := by
  cases h with
  | stop _ => rfl
  | more hmore _ => exact absurd ht hmore

theorem Takes.ended (h : Takes ts l ts') (hts : Ended ts) : Ended ts' := by
  induction h with
  | stop => exact hts
  | newline ht => exact hts.tail (by rw [ht]; nofun)
  | token _ ht _ ih => exact ih (hts.tail ht)

theorem Takes.length_le (h : Takes ts l ts') : ts'.length + l.length ≤ ts.length := by
  induction h with
  | stop => exact Nat.le_refl _
  | newline => exact Nat.le_succ _
  | token _ _ _ ih => exact Nat.succ_le_succ ih

theorem restOfLine_takes (hts : Ended ts) (hturns : ts.length ≤ turns) :
    ∃ l ts', restOfLine turns ts = some (l, ts') ∧ Takes ts l ts' := by
  induction turns generalizing ts with
  | zero => exact absurd hts.length_pos (Nat.not_lt.2 hturns)
  | succ turns ih =>
    cases hts with
    | @stop t ht => exact ⟨[], [t], by simp [restOfLine, ht], .stop ht⟩
    | @more t rest ht hrest =>
      by_cases hline : t.kind = .newline
      · exact ⟨[], rest, by simp [restOfLine, next, hline], .newline hline⟩
      · obtain ⟨l, ts', hl, htakes⟩ := ih hrest (Nat.le_of_succ_le_succ hturns)
        refine ⟨t :: l, ts', ?_, .token hline ht htakes⟩
        simp [restOfLine, next, hline, ht, hl]

/-- A line is skipped as it is read. -/
theorem skipLine_eq (turns : Nat) (ts : List Token) :
    skipLine turns ts = (restOfLine turns ts).map Prod.snd := by
  induction turns generalizing ts with
  | zero => rfl
  | succ turns ih =>
    cases ts with
    | nil => rfl
    | cons t rest =>
      by_cases hline : t.kind = .newline
      · simp [skipLine, restOfLine, next, hline]
      by_cases hstop : t.kind = .endOfFile
      · simp [skipLine, restOfLine, next, hstop]
      · cases hrest : restOfLine turns rest <;>
          simp [skipLine, restOfLine, next, hline, hstop, ih, hrest]

theorem skipLine_takes (hts : Ended ts) (hturns : ts.length ≤ turns) :
    ∃ l ts', skipLine turns ts = some ts' ∧ Takes ts l ts' := by
  obtain ⟨l, ts', hrest, htakes⟩ := restOfLine_takes hts hturns
  exact ⟨l, ts', by rw [skipLine_eq, hrest]; rfl, htakes⟩

/-! ## Lines ahead -/

/-- What the lines of the tokens ahead make of a state. -/
def settle (s : ParseState) (ts : List Token) : ParseState :=
  ((lines ts).foldl ParseState.line s).close

theorem lines_of_takes (h : Takes ts l ts') :
    ∃ ls, lines ts = l :: ls ∧ ∀ s, (ls.foldl ParseState.line s).close = settle s ts' := by
  induction h with
  | stop ht =>
    exact ⟨[], by simp [lines, ht], fun s => by simp [settle, lines, ht, ParseState.line]⟩
  | newline ht => exact ⟨_, by rw [lines, ht], fun s => rfl⟩
  | @token t rest l ts hline ht _ ih =>
    obtain ⟨ls, hls, hsettle⟩ := ih
    refine ⟨ls, ?_, hsettle⟩
    rw [lines]
    split
    · contradiction
    · contradiction
    · rw [hls]

theorem Takes.settle (h : Takes ts l ts') (s : ParseState) :
    settle s ts = Cursor.settle (s.line l) ts' := by
  obtain ⟨ls, hls, hsettle⟩ := lines_of_takes h
  rw [Cursor.settle, hls, List.foldl_cons, hsettle]

theorem settle_stop (s : ParseState) (ht : t.kind = .endOfFile) : settle s [t] = s.close := by
  simp [settle, lines, ht, ParseState.line]

/-- The cursor went on without changing what the lines give. -/
structure Ahead (ts ts' : List Token) : Prop where
  ended : Ended ts'
  length_le : ts'.length ≤ ts.length
  settle : ∀ s, settle s ts = settle s ts'

theorem skipNewlines_ahead (hts : Ended ts) (hturns : ts.length ≤ turns) :
    ∃ t rest, skipNewlines turns ts = some (t :: rest) ∧ t.kind ≠ .newline ∧
      Ahead ts (t :: rest) := by
  induction turns generalizing ts with
  | zero => exact absurd hts.length_pos (Nat.not_lt.2 hturns)
  | succ turns ih =>
    obtain ⟨t, rest, rfl⟩ := List.exists_cons_of_length_pos hts.length_pos
    by_cases hline : t.kind = .newline
    · have hrest : Ended rest := hts.tail (by rw [hline]; nofun)
      obtain ⟨u, rest', hskip, hu, hahead⟩ := ih hrest (Nat.le_of_succ_le_succ hturns)
      refine ⟨u, rest', by simp [skipNewlines, next, hline, hskip], hu, hahead.ended,
        Nat.le_succ_of_le hahead.length_le, fun s => ?_⟩
      exact ((Takes.newline hline).settle s).trans (hahead.settle s)
    · exact ⟨t, rest, by simp [skipNewlines, hline], hline, hts, Nat.le_refl _, fun _ => rfl⟩

theorem expectLineEnd_takes (hts : Ended ts) (hturns : ts.length ≤ turns) (s : ParseState) :
    ∃ l rest ts', expectLineEnd turns s ts = some (s.endOfLine l, ts') ∧ Takes ts l rest ∧
      ts'.length ≤ ts.length ∧ Ended ts' ∧ ∀ s, settle s ts' = settle s rest := by
  obtain ⟨t, tail, rfl⟩ := List.exists_cons_of_length_pos hts.length_pos
  by_cases hend : t.kind = .newline ∨ t.kind = .endOfFile
  · have hstay : expectLineEnd turns s (t :: tail) = some (s, t :: tail) := by
      simp [expectLineEnd, hend]
    rcases hend with hline | hstop
    · exact ⟨[], tail, t :: tail, hstay, .newline hline, Nat.le_refl _, hts,
        (Takes.newline hline).settle⟩
    · cases hts.stop_iff hstop
      exact ⟨[], [t], [t], hstay, .stop hstop, Nat.le_refl _, hts, fun _ => rfl⟩
  · obtain ⟨l, ts', hskip, htakes⟩ := skipLine_takes hts hturns
    have hrun : expectLineEnd turns s (t :: tail) =
        some (s.report t.pos (.afterEnd t), ts') := by
      simp [expectLineEnd, hend, hskip]
    cases htakes with
    | stop hstop => exact absurd (.inr hstop) hend
    | newline hline => exact absurd (.inl hline) hend
    | token hline hstop htail =>
      have htakes := htail.token hline hstop
      exact ⟨t :: _, ts', ts', hrun, htakes, by have := htakes.length_le; omega,
        htakes.ended hts, fun _ => rfl⟩

/-! ## Bodies -/

/-- `s` with tokens `ts` ahead and `s'` with fewer tokens `ts'` ahead come to the same. -/
structure Agree (s : ParseState) (ts : List Token) (s' : ParseState) (ts' : List Token) :
    Prop where
  ended : Ended ts'
  length_le : ts'.length ≤ ts.length
  settle : settle s ts = settle s' ts'

variable {s s' s'' : ParseState} {ts'' : List Token}

theorem Agree.trans (h : Agree s ts s' ts') (h' : Agree s' ts' s'' ts'') : Agree s ts s'' ts'' :=
  ⟨h'.ended, h'.length_le.trans h.length_le, h.settle.trans h'.settle⟩

theorem Ahead.agree (h : Ahead ts ts') (s : ParseState) : Agree s ts s ts' :=
  ⟨h.ended, h.length_le, h.settle s⟩

theorem Takes.agree (h : Takes ts l ts') (hts : Ended ts) (s : ParseState) :
    Agree s ts (s.line l) ts' :=
  ⟨h.ended hts, by have := h.length_le; omega, h.settle s⟩

theorem agree_stop (hts : Ended [t]) (ht : t.kind = .endOfFile) (h : s.close = s'.close) :
    Agree s [t] s' [t] :=
  ⟨hts, Nat.le_refl _, by rw [settle_stop s ht, settle_stop s' ht, h]⟩

theorem more_of_isWord {w : Bytes} (h : t.isWord w = true) :
    t.kind ≠ .newline ∧ t.kind ≠ .endOfFile := by
  rw [(Token.isWord_iff.1 h).1]
  exact ⟨nofun, nofun⟩

/-- A line that begins with a word, from the token behind the word on. -/
theorem restOfLine_agree {w : Bytes} (hts : Ended (t :: ts)) (hturns : (t :: ts).length ≤ turns)
    (hword : t.isWord w = true) :
    ∃ l ts', restOfLine turns ts = some (l, ts') ∧ ts'.length ≤ ts.length ∧
      ∀ s, Agree s (t :: ts) (s.line (t :: l)) ts' := by
  obtain ⟨hline, hstop⟩ := more_of_isWord hword
  obtain ⟨l, ts', hrun, htakes⟩ :=
    restOfLine_takes (hts.tail hstop) (Nat.le_of_succ_le hturns)
  have hle := htakes.length_le
  exact ⟨l, ts', hrun, by omega, (htakes.token hline hstop).agree hts⟩

/-- A line `end` from the cursor on. -/
theorem expectLineEnd_agree (hts : Ended (t :: ts)) (hturns : (t :: ts).length ≤ turns)
    (hend : t.isWord "end" = true) (s : ParseState) :
    ∃ l ts', expectLineEnd turns s ts = some (s.endOfLine l, ts') ∧
      ∀ s, Agree s (t :: ts) (s.line (t :: l)) ts' := by
  obtain ⟨hline, hstop⟩ := more_of_isWord hend
  obtain ⟨l, rest, ts', hrun, htakes, hle, hended, hsettle⟩ :=
    expectLineEnd_takes (hts.tail hstop) (Nat.le_of_succ_le hturns) s
  exact ⟨l, ts', hrun, fun s => ⟨hended, Nat.le_succ_of_le hle,
    ((htakes.token hline hstop).settle s).trans (hsettle _).symm⟩⟩

/-- A line that does not begin with a line end or the end of file is passed as a whole. -/
theorem Takes.first (h : Takes (t :: ts) l ts') (hline : t.kind ≠ .newline)
    (hstop : t.kind ≠ .endOfFile) : ∃ rest, l = t :: rest ∧ ts'.length ≤ ts.length := by
  cases h with
  | stop h => exact absurd h hstop
  | newline h => exact absurd h hline
  | token _ _ htail =>
    have := htail.length_le
    exact ⟨_, rfl, by omega⟩

/-! ### Lines in a context -/

theorem report_enter (s : ParseState) (context : Context) (pos : Position) (problem : Problem) :
    (s.enter context).report pos problem = (s.report pos problem).enter context :=
  rfl

theorem enter_enter (s : ParseState) (before after : Context) :
    (s.enter before).enter after = s.enter after :=
  rfl

theorem endOfLine_enter (s : ParseState) (context : Context) (l : List Token) :
    (s.enter context).endOfLine l = (s.endOfLine l).enter context := by
  cases l <;> rfl

theorem classes_endOfLine (s : ParseState) (l : List Token) :
    (s.endOfLine l).classes = s.classes := by
  cases l <;> rfl

theorem bodyLine_enter (s : ParseState) (context : Context) (pos : Position) (l : List Token) :
    bodyLine (s.enter context) pos l =
      ((bodyLine s pos l).1.enter context, (bodyLine s pos l).2) := by
  unfold bodyLine
  rcases splitLabel l with ⟨label, rest⟩
  cases rest with
  | nil => rfl
  | cons t operands =>
    dsimp only
    split <;> rfl

theorem methodSizes_enter (s : ParseState) (context : Context) (m : MethodDecl)
    (sizes : List Token) :
    methodSizes (s.enter context) m sizes =
      ((methodSizes s m sizes).1.enter context, (methodSizes s m sizes).2) := by
  fun_induction methodSizes s m sizes <;> simp_all [methodSizes, report_enter]

theorem methodHeader_enter (s : ParseState) (context : Context) (c : ClassDecl) (pos : Position)
    (header : List Token) :
    methodHeader (s.enter context) c pos header = methodHeader s c pos header := by
  unfold methodHeader
  simp only [methodSizes_enter, report_enter, enter_enter]

theorem line_skipping (s : ParseState) (c : ClassDecl) (t : Token) (l : List Token) :
    (s.enter (.skipping c)).line (t :: l) =
      if t.isWord "end" then (s.endOfLine l).enter (.inClass c) else s.enter (.skipping c) := by
  change (s.enter .top).skippedLine c t l = _
  rw [ParseState.skippedLine, endOfLine_enter, enter_enter, enter_enter]

theorem line_inMethod (s : ParseState) (c : ClassDecl) (m : MethodDecl) (t : Token)
    (l : List Token) :
    (s.enter (.inMethod c m)).line (t :: l) =
      if t.isWord "end" then
        (s.endOfLine l).enter (.inClass { c with methods := c.methods.push m })
      else
        (bodyLine s t.pos (t :: l)).1.enter
          (.inMethod c { m with body := m.body.push (bodyLine s t.pos (t :: l)).2 }) := by
  change (s.enter .top).methodLine c m t l = _
  rw [ParseState.methodLine, endOfLine_enter, enter_enter, bodyLine_enter]
  rfl

theorem line_inClass (s : ParseState) (c : ClassDecl) (t : Token) (l : List Token) :
    (s.enter (.inClass c)).line (t :: l) =
      if t.isWord "end" then
        { s.endOfLine l with context := .top, classes := (s.endOfLine l).classes.push c }
      else if t.isWord "method" then methodHeader s c t.pos l
      else (s.report t.pos (.expectedMethod t)).enter (.inClass c) := by
  change (s.enter .top).classLine c t l = _
  rw [ParseState.classLine, endOfLine_enter, methodHeader_enter, report_enter, enter_enter,
    classes_endOfLine]
  rfl

/-! ### Loops -/

theorem skipBody_agree (hts : Ended ts) (hturns : ts.length ≤ turns) (s : ParseState) :
    ∃ s' ts', skipBody turns s ts = some (s', ts') ∧
      ∀ c, Agree (s.enter (.skipping c)) ts (s'.enter (.inClass c)) ts' := by
  induction turns generalizing ts with
  | zero => exact absurd hts.length_pos (Nat.not_lt.2 hturns)
  | succ turns ih =>
    obtain ⟨t, rest, hskip, hline, hahead⟩ := skipNewlines_ahead hts hturns
    have hle := hahead.length_le.trans hturns
    by_cases hstop : t.kind = .endOfFile
    · cases hahead.ended.stop_iff hstop
      refine ⟨s, [t], by simp [skipBody, hskip, next, hstop], fun c => ?_⟩
      exact (hahead.agree _).trans (agree_stop hahead.ended hstop rfl)
    by_cases hend : t.isWord "end" = true
    · obtain ⟨l, ts', hrun, hagree⟩ := expectLineEnd_agree hahead.ended hle hend s
      refine ⟨s.endOfLine l, ts', by simp [skipBody, hskip, next, hstop, hend, hrun],
        fun c => (hahead.agree _).trans ?_⟩
      have h := hagree (s.enter (.skipping c))
      rwa [line_skipping, if_pos hend] at h
    · obtain ⟨l, ts', hrun, htakes⟩ :=
        @skipLine_takes (turns + 1) _ (hahead.ended.tail hstop) (Nat.le_of_succ_le hle)
      have hpass := Takes.token hline hstop htakes
      have hlt : ts'.length ≤ turns := by
        have := htakes.length_le
        rw [List.length_cons] at hle
        omega
      obtain ⟨s', ts'', hrest, hagree⟩ := ih (hpass.ended hahead.ended) hlt
      refine ⟨s', ts'', by simp [skipBody, hskip, next, hstop, hend, hrun, hrest],
        fun c => (hahead.agree _).trans (Agree.trans ?_ (hagree c))⟩
      have h := hpass.agree hahead.ended (s.enter (.skipping c))
      rwa [line_skipping, if_neg hend] at h

theorem methodBody_agree (hts : Ended ts) (hturns : ts.length ≤ turns) (s : ParseState)
    (m : MethodDecl) :
    ∃ s' m' ts', methodBody turns s m ts = some (s', m', ts') ∧
      ∀ c : ClassDecl, Agree (s.enter (.inMethod c m)) ts
        (s'.enter (.inClass { c with methods := c.methods.push m' })) ts' := by
  induction turns generalizing ts s m with
  | zero => exact absurd hts.length_pos (Nat.not_lt.2 hturns)
  | succ turns ih =>
    obtain ⟨t, rest, hskip, hline, hahead⟩ := skipNewlines_ahead hts hturns
    have hle := hahead.length_le.trans hturns
    by_cases hstop : t.kind = .endOfFile
    · cases hahead.ended.stop_iff hstop
      refine ⟨_, m, [t], by simp [methodBody, hskip, hstop]; rfl, fun c => ?_⟩
      exact (hahead.agree _).trans (agree_stop hahead.ended hstop rfl)
    by_cases hend : t.isWord "end" = true
    · obtain ⟨l, ts', hrun, hagree⟩ := expectLineEnd_agree hahead.ended hle hend s
      refine ⟨s.endOfLine l, m, ts',
        by simp [methodBody, hskip, next, hstop, hend, hrun], fun c => (hahead.agree _).trans ?_⟩
      have h := hagree (s.enter (.inMethod c m))
      rwa [line_inMethod, if_pos hend] at h
    · obtain ⟨l, ts', hrun, hpass⟩ := restOfLine_takes hahead.ended hle
      obtain ⟨operands, rfl, hlt⟩ := hpass.first hline hstop
      obtain ⟨s', m', ts'', hrest, hagree⟩ :=
        ih (hpass.ended hahead.ended) (hlt.trans (Nat.le_of_succ_le_succ hle))
          (bodyLine s t.pos (t :: operands)).1
          { m with body := m.body.push (bodyLine s t.pos (t :: operands)).2 }
      refine ⟨s', m', ts'', by simp [methodBody, hskip, hstop, hend, hrun, hrest],
        fun c => (hahead.agree _).trans (Agree.trans ?_ (hagree c))⟩
      have h := hpass.agree hahead.ended (s.enter (.inMethod c m))
      rwa [line_inMethod, if_neg hend] at h

theorem context_methodHeader (s : ParseState) (c : ClassDecl) (pos : Position)
    (header : List Token) :
    (∃ m, (methodHeader s c pos header).context = .inMethod c m) ∨
      (methodHeader s c pos header).context = .skipping c := by
  unfold methodHeader
  split
  dsimp only
  split
  · split
    · exact .inl ⟨_, rfl⟩
    · exact .inr rfl
  · exact .inr rfl

theorem enter_self {context : Context} (h : s.context = context) : s.enter context = s := by
  subst h
  rfl

theorem method_agree (hts : Ended (t :: ts)) (hturns : (t :: ts).length ≤ turns)
    (hmethod : t.isWord "method" = true) (s : ParseState) (c : ClassDecl) :
    ∃ s' m ts', method turns s c (t :: ts) = some (s', m, ts') ∧ ts'.length ≤ ts.length ∧
      Agree (s.enter (.inClass c)) (t :: ts)
        (s'.enter (.inClass { c with methods := m.elim c.methods c.methods.push })) ts' := by
  obtain ⟨-, hstop⟩ := more_of_isWord hmethod
  obtain ⟨header, ts', hrun, hle, hline⟩ := restOfLine_agree hts hturns hmethod
  have hbody : ts'.length ≤ turns := hle.trans (Nat.le_of_succ_le hturns)
  have hheader := hline (s.enter (.inClass c))
  rw [line_inClass, if_neg (Token.not_isWord hmethod (by decide)), if_pos hmethod] at hheader
  have hended := hheader.ended
  rcases context_methodHeader s c t.pos header with ⟨m, hcontext⟩ | hcontext
  · obtain ⟨s', m', ts'', hloop, hagree⟩ :=
      methodBody_agree hended hbody (methodHeader s c t.pos header) m
    refine ⟨s', some m', ts'', by simp [method, next, hstop, hrun, hcontext, hloop], ?_⟩
    have hagree := hagree c
    rw [enter_self hcontext] at hagree
    exact ⟨hagree.length_le.trans hle, hheader.trans hagree⟩
  · obtain ⟨s', ts'', hloop, hagree⟩ := skipBody_agree hended hbody (methodHeader s c t.pos header)
    refine ⟨s', none, ts'', by simp [method, next, hstop, hrun, hcontext, hloop], ?_⟩
    have hagree := hagree c
    rw [enter_self hcontext] at hagree
    exact ⟨hagree.length_le.trans hle, hheader.trans hagree⟩

/-- The state behind a class. -/
def leave (s : ParseState) (c : ClassDecl) : ParseState :=
  { s with context := .top, classes := s.classes.push c }

theorem classBody_agree (hts : Ended ts) (hturns : ts.length ≤ turns) (s : ParseState)
    (c : ClassDecl) :
    ∃ s' c' ts', classBody turns s c ts = some (s', c', ts') ∧
      Agree (s.enter (.inClass c)) ts (leave s' c') ts' := by
  induction turns generalizing ts s c with
  | zero => exact absurd hts.length_pos (Nat.not_lt.2 hturns)
  | succ turns ih =>
    obtain ⟨t, rest, hskip, hline, hahead⟩ := skipNewlines_ahead hts hturns
    have hle := hahead.length_le.trans hturns
    have hagree := hahead.agree (s.enter (.inClass c))
    by_cases hstop : t.kind = .endOfFile
    · cases hahead.ended.stop_iff hstop
      refine ⟨_, c, [t], by simp [classBody, hskip, hstop]; rfl, hagree.trans ?_⟩
      exact agree_stop hahead.ended hstop rfl
    by_cases hend : t.isWord "end" = true
    · obtain ⟨l, ts', hrun, hclose⟩ := expectLineEnd_agree hahead.ended hle hend s
      refine ⟨s.endOfLine l, c, ts',
        by simp [classBody, hskip, next, hstop, hend, hrun], hagree.trans ?_⟩
      have h := hclose (s.enter (.inClass c))
      rwa [line_inClass, if_pos hend] at h
    by_cases hmethod : t.isWord "method" = true
    · obtain ⟨s', m, ts', hrun, hlt, hread⟩ := method_agree hahead.ended hle hmethod s c
      obtain ⟨s'', c', ts'', hrest, hloop⟩ :=
        ih hread.ended (hlt.trans (Nat.le_of_succ_le_succ hle)) s'
          { c with methods := m.elim c.methods c.methods.push }
      exact ⟨s'', c', ts'', by simp [classBody, hskip, hstop, hend, hmethod, hrun, hrest],
        hagree.trans (hread.trans hloop)⟩
    · obtain ⟨l, ts', hrun, hpass⟩ := skipLine_takes hahead.ended hle
      obtain ⟨l, rfl, hlt⟩ := hpass.first hline hstop
      obtain ⟨s'', c', ts'', hrest, hloop⟩ :=
        ih (hpass.ended hahead.ended) (hlt.trans (Nat.le_of_succ_le_succ hle))
          (s.report t.pos (.expectedMethod t)) c
      refine ⟨s'', c', ts'', by simp [classBody, hskip, hstop, hend, hmethod, hrun, hrest],
        hagree.trans (Agree.trans ?_ hloop)⟩
      have h := hpass.agree hahead.ended (s.enter (.inClass c))
      rwa [line_inClass, if_neg hend, if_neg hmethod] at h

theorem classDecl_agree (hts : Ended (t :: ts)) (hturns : (t :: ts).length ≤ turns)
    (hclass : t.isWord "class" = true) (htop : s.context = .top) :
    ∃ s' c ts', classDecl turns s (t :: ts) = some (s', c, ts') ∧ ts'.length ≤ ts.length ∧
      Agree s (t :: ts) (leave s' c) ts' := by
  obtain ⟨-, hstop⟩ := more_of_isWord hclass
  obtain ⟨header, ts', hrun, hle, hline⟩ := restOfLine_agree hts hturns hclass
  have hbody : ts'.length ≤ turns := hle.trans (Nat.le_of_succ_le hturns)
  have htopLine : s.line (t :: header) = s.topLine t header := by rw [ParseState.line, htop]
  have hheader := hline s
  rw [htopLine, ParseState.topLine, if_pos hclass] at hheader
  have hended := hheader.ended
  cases hc : classHeader t.pos header with
  | some c =>
    obtain ⟨s', c', ts'', hloop, hagree⟩ := classBody_agree hended hbody s c
    rw [hc] at hheader
    exact ⟨s', c', ts'', by simp [classDecl, next, hstop, hrun, hc, hloop],
      hagree.length_le.trans hle, hheader.trans hagree⟩
  | none =>
    obtain ⟨s', c', ts'', hloop, hagree⟩ := classBody_agree hended hbody
      (s.report t.pos .malformedClassHeader) ⟨t.pos, [], [], #[]⟩
    rw [hc] at hheader
    exact ⟨s', c', ts'', by simp [classDecl, next, hstop, hrun, hc, hloop],
      hagree.length_le.trans hle, hheader.trans hagree⟩

theorem file_settle (hts : Ended ts) (hturns : ts.length ≤ turns) (htop : s.context = .top) :
    ∃ t, file turns s ts = some (settle s ts, [t]) ∧ t.kind = .endOfFile := by
  induction turns generalizing ts s with
  | zero => exact absurd hts.length_pos (Nat.not_lt.2 hturns)
  | succ turns ih =>
    obtain ⟨t, rest, hskip, hline, hahead⟩ := skipNewlines_ahead hts hturns
    have hle := hahead.length_le.trans hturns
    rw [hahead.settle]
    by_cases hstop : t.kind = .endOfFile
    · cases hahead.ended.stop_iff hstop
      have hclose : s.close = s := by rw [ParseState.close, htop]
      exact ⟨t, by simp [file, hskip, hstop, settle_stop, hclose], hstop⟩
    by_cases hclass : t.isWord "class" = true
    · obtain ⟨s', c, ts', hrun, hlt, hread⟩ := classDecl_agree hahead.ended hle hclass htop
      obtain ⟨stop, hrest, hkind⟩ := ih hread.ended (hlt.trans (Nat.le_of_succ_le_succ hle))
        (s := leave s' c) rfl
      rw [hread.settle]
      exact ⟨stop, by rw [← hrest]; simp [file, hskip, hstop, hclass, hrun, leave], hkind⟩
    · obtain ⟨l, ts', hrun, hpass⟩ := skipLine_takes hahead.ended hle
      obtain ⟨l, rfl, hlt⟩ := hpass.first hline hstop
      obtain ⟨stop, hrest, hkind⟩ :=
        ih (hpass.ended hahead.ended) (hlt.trans (Nat.le_of_succ_le_succ hle))
          (s := s.report t.pos (.expectedClass t)) htop
      have hread : s.line (t :: l) = s.report t.pos (.expectedClass t) := by
        rw [ParseState.line, htop]
        exact if_neg hclass
      rw [hpass.settle, hread]
      exact ⟨stop, by rw [← hrest]; simp [file, hskip, hstop, hclass, hrun], hkind⟩

/-! ## Sources -/

theorem kind_ofWord (pos : Position) (w : Bytes) : (Token.ofWord pos w).kind ≠ .endOfFile := by
  unfold Token.ofWord
  split
  · nofun
  · split <;> nofun

theorem kind_newline (pos : Position) : (Token.newline pos).kind ≠ .endOfFile := by
  simp [Token.newline]

theorem ended_pending {mode : Mode} (hts : Ended ts) : Ended (mode.pending ++ ts) := by
  cases mode with
  | between | comment => exact hts
  | word start reversed => exact .more (kind_ofWord _ _) hts

theorem ended_tokensFrom (mode : Mode) (p : Position) (source : Bytes) :
    Ended (tokensFrom mode p source) := by
  induction source generalizing mode p with
  | nil => exact ended_pending (.stop rfl)
  | cons b rest ih =>
    unfold tokensFrom
    by_cases hline : b = 10
    · rw [if_pos hline]
      exact ended_pending (.more (kind_newline _) (ih ..))
    rw [if_neg hline]
    cases mode with
    | comment => exact ih ..
    | between =>
      dsimp only
      split
      · exact ih ..
      · split <;> exact ih ..
    | word start reversed =>
      dsimp only
      split
      · exact .more (kind_ofWord _ _) (ih ..)
      · exact ih ..

end Cursor

open Grammar

/-- With one turn for each token the parser comes to the end of file, and it has no problem
exactly when the lines with tokens are a file, whose classes it gives then. -/
theorem parse_grammar (source : Bytes) :
    (∃ stop, Cursor.file (tokenize source).length .start (tokenize source) =
        some (parseRecovering source, [stop]) ∧ stop.kind = .endOfFile) ∧
      ∀ classes, parse source = .ok classes ↔ File (phrases source) classes :=
  ⟨Cursor.file_settle (Cursor.ended_tokensFrom ..) (Nat.le_refl _) rfl,
    fun _ => parse_eq_ok_iff⟩

end MiniJvm.Assembly
