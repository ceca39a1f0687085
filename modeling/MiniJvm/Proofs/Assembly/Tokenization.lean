import Mathlib
import MiniJvm.Proofs.Assembly.Cursor
import MiniJvm.Proofs.Assembly.Spelling

/-!
# Tokens and the text of a source

The tokens of a source are its words and line ends in their order. Only blanks and comments stand
between them, and each token knows the place where its text starts (`tokenize_lossless`).

`Tiles` cuts the rest of a source into the texts of tokens and the gaps before them. What holds of
a token among others is read off the place where it is cut out (`Tiles.split`).
-/

namespace MiniJvm.Assembly

/-! ## Places -/

/-- The place behind a text at the start of a source. Its column counts the bytes behind the last
line end. -/
def Position.after (text : Bytes) : Position :=
  ⟨text.length, 1 + text.count 10, 1 + (text.reverse.takeWhile (· != 10)).length⟩

theorem Position.after_concat (text : Bytes) {b : UInt8} (hb : b ≠ 10) :
    after (text ++ [b]) = (after text).next := by
  simp [after, next, hb, Nat.add_assoc]

theorem Position.after_newline (text : Bytes) : after (text ++ [10]) = (after text).nextLine := by
  simp [after, nextLine, Nat.add_assoc]

/-! ## Texts of tokens and gaps -/

/-- A byte that ends a word. -/
def isDelimiter (b : UInt8) : Bool := isBlank b || b = 10

def commentMark : Bytes := [47, 47]

/-- The text of a word. No comment opens where a word starts, but one may seem to inside. -/
structure IsWord (w : Bytes) : Prop where
  nonempty : w ≠ []
  solid : ∀ b ∈ w, isDelimiter b = false
  noComment : ¬commentMark <+: w

def Blank (gap : Bytes) : Prop := ∀ b ∈ gap, isBlank b = true

/-- What may stand before a token of a kind: blanks, and before the end of a line or of the source
a comment behind them. -/
inductive Gap : Bytes → TokenKind → Prop where
  | blank {gap : Bytes} {kind : TokenKind} : Blank gap → Gap gap kind
  | comment {gap text : Bytes} {kind : TokenKind} : Blank gap → commentMark <+: text →
      10 ∉ text → kind = .newline ∨ kind = .endOfFile → Gap (gap ++ text) kind

/-- A token that is not the end of the source, with what follows its text. A word goes on until a
byte that ends it. -/
inductive Piece (t : Token) (rest : Bytes) : Prop where
  | newline : t.kind = .newline → t.written = [10] → Piece t rest
  | word : t.kind ≠ .newline → t.kind ≠ .endOfFile → t.Spelled → IsWord t.written →
      (∀ b ∈ rest.head?, isDelimiter b = true) → Piece t rest

/-- The tokens of the rest of a source, behind the text `before`. -/
inductive Tiles : Bytes → Bytes → List Token → Prop where
  | stop {before gap : Bytes} : Gap gap .endOfFile →
      Tiles before gap [.endOfFile (.after (before ++ gap))]
  | token {before gap rest : Bytes} {t : Token} {ts : List Token} : Gap gap t.kind →
      t.pos = .after (before ++ gap) → Piece t rest → Tiles (before ++ gap ++ t.written) rest ts →
      Tiles before (gap ++ t.written ++ rest) (t :: ts)

theorem written_newline (pos : Position) : (Token.newline pos).written = [10] := rfl

theorem ofWord_spec (pos : Position) (w : Bytes) :
    (Token.ofWord pos w).written = w ∧ (Token.ofWord pos w).pos = pos ∧
      (Token.ofWord pos w).kind ≠ .newline := by
  cases hv : Literal.int64? w with
  | some v => simp [ofWord_integer pos hv, Token.written]
  | none =>
    by_cases hw : IsLabel w
    · have hwritten : w.dropLast ++ ":" = w := List.dropLast_append_getLast? 58 hw.last
      simp [ofWord_label pos hw, Token.written, hwritten]
    · simp [ofWord_word pos hv hw, Token.written]

/-- A word and what follows it. -/
theorem Tiles.word {before gap w rest : Bytes} {ts : List Token} (hgap : Blank gap)
    (hw : IsWord w) (hrest : ∀ b ∈ rest.head?, isDelimiter b = true)
    (hts : Tiles (before ++ gap ++ w) rest ts) :
    Tiles before (gap ++ w ++ rest) (.ofWord (.after (before ++ gap)) w :: ts) := by
  obtain ⟨hwritten, hpos, hline⟩ := ofWord_spec (.after (before ++ gap)) w
  have htiles := @Tiles.token before _ _ _ _ (.blank hgap) hpos
    (.word hline (Cursor.kind_ofWord _ _) (spelled_ofWord _ _) (hwritten.symm ▸ hw) hrest)
    (hwritten.symm ▸ hts)
  rwa [hwritten] at htiles

/-! ## Cutting -/

/-- How much of the next token has been read, and what of the source is behind the last one. -/
inductive Amid (before : Bytes) : Mode → Bytes → Bytes → Prop where
  | between {gap rest : Bytes} : Blank gap → Amid before .between gap rest
  | comment {gap text rest : Bytes} : Blank gap → commentMark <+: text ++ rest → 10 ∉ text →
      Amid before .comment (gap ++ text) rest
  | word {gap w rest : Bytes} : Blank gap → w ≠ [] → (∀ b ∈ w, isDelimiter b = false) →
      ¬commentMark <+: w ++ rest →
      Amid before (.word (.after (before ++ gap)) w.reverse) (gap ++ w) rest

theorem startsComment_of_append {text rest : Bytes} (h : commentMark <+: text ++ rest)
    (hrest : ∀ b ∈ rest.head?, b = 10) : commentMark <+: text := by
  match text, rest with
  | a :: b :: text, rest => simpa [commentMark] using h
  | [a], [] | [], [] => simpa using h
  | [a], c :: rest | [], c :: rest =>
    rw [hrest c rfl] at h
    simp [commentMark] at h

/-- At the end of a line or of the source the token that was begun is complete, and what is left
before the next one is a gap. -/
theorem Amid.close {before text rest : Bytes} {mode : Mode} {ts : List Token}
    (h : Amid before mode text rest) (hrest : ∀ b ∈ rest.head?, b = 10)
    (hts : ∀ front gap, front ++ gap = before ++ text →
      (∀ kind, kind = .newline ∨ kind = .endOfFile → Gap gap kind) → Tiles front (gap ++ rest) ts) :
    Tiles before (text ++ rest) (mode.pending ++ ts) := by
  cases h with
  | between hgap => exact hts _ _ rfl fun _ _ => .blank hgap
  | comment hgap hmark hline =>
    exact hts _ _ rfl fun _ hkind => .comment hgap (startsComment_of_append hmark hrest) hline hkind
  | @word gap w _ hgap hne hsolid hmark =>
    rw [Mode.pending, List.reverse_reverse]
    refine Tiles.word hgap ⟨hne, hsolid, fun h => hmark (h.trans (List.prefix_append ..))⟩
      (fun b hb => by simp [isDelimiter, hrest b hb]) ?_
    exact hts (before ++ gap ++ w) [] (by simp) fun _ _ => .blank nofun

theorem amid_nothing (before rest : Bytes) : Amid before .between [] rest := .between nofun

/-- A byte that is neither a blank nor the start of a comment is the start of a word. -/
theorem Amid.begin {before gap rest : Bytes} {b : UInt8} (hgap : Blank gap)
    (hsolid : isDelimiter b = false) (hmark : ¬(b = 47 ∧ rest.head? = some 47)) :
    Amid before (.word (.after (before ++ gap)) [b]) (gap ++ [b]) rest := by
  refine .word (w := [b]) hgap (List.cons_ne_nil b []) (List.forall_mem_singleton.2 hsolid)
    fun hopens => hmark ?_
  cases rest with
  | nil => simp [commentMark] at hopens
  | cons c rest =>
    obtain ⟨rfl, rfl⟩ : 47 = b ∧ 47 = c := by simpa [commentMark] using hopens
    exact ⟨rfl, rfl⟩

theorem tiles_tokensFrom {before text rest : Bytes} {mode : Mode}
    (h : Amid before mode text rest) :
    Tiles before (text ++ rest) (tokensFrom mode (.after (before ++ text)) rest) := by
  induction rest generalizing before text mode with
  | nil =>
    refine h.close nofun fun front gap hfront hgap => ?_
    rw [← hfront, List.append_nil]
    exact .stop (hgap _ (.inr rfl))
  | cons b rest ih =>
    unfold tokensFrom
    by_cases hline : b = 10
    · rw [if_pos hline]
      subst hline
      refine h.close (fun b hb => (Option.some.inj hb).symm) fun front gap hfront hgap => ?_
      rw [← hfront, ← Position.after_newline]
      have hrest := ih (amid_nothing (front ++ gap ++ [10]) rest)
      rw [List.append_nil, List.nil_append] at hrest
      have htiles := Tiles.token (t := .newline (.after (front ++ gap))) (hgap _ (.inl rfl)) rfl
        (.newline rfl rfl) hrest
      rwa [written_newline, List.append_assoc] at htiles
    rw [if_neg hline]
    have hnext {mode : Mode} (h : Amid before mode (text ++ [b]) rest) :
        Tiles before (text ++ b :: rest)
          (tokensFrom mode (.next (.after (before ++ text))) rest) := by
      have htiles := ih h
      rwa [← List.append_assoc before, Position.after_concat _ hline, List.append_assoc] at htiles
    have hsolid (hblank : ¬isBlank b = true) : isDelimiter b = false := by
      simpa [isDelimiter, hline] using hblank
    cases h with
    | between hgap =>
      dsimp only
      split
      · rename_i hblank
        exact hnext (.between (List.forall_mem_append.2 ⟨hgap, List.forall_mem_singleton.2 hblank⟩))
      · rename_i hblank
        split
        · rename_i hmark
          obtain ⟨rfl, hslash⟩ : b = 47 ∧ rest.head? = some 47 := by simpa using hmark
          obtain ⟨rest, rfl⟩ := List.head?_eq_some_iff.1 hslash
          exact hnext (.comment hgap ⟨rest, rfl⟩ (by decide))
        · rename_i hmark
          exact hnext (.begin hgap (hsolid hblank) (by simpa using hmark))
    | @comment gap text _ hgap hmark hnone =>
      rw [List.append_assoc] at hnext
      refine hnext (.comment hgap (by simpa using hmark) ?_)
      simp [hnone, Ne.symm hline]
    | @word gap w _ hgap hne hwhole hmark =>
      dsimp only
      split
      · rename_i hblank
        rw [List.reverse_reverse]
        refine Tiles.word hgap ⟨hne, hwhole, fun h => hmark (h.trans (List.prefix_append ..))⟩ ?_ ?_
        · simp [isDelimiter, hblank]
        · have hone : Amid (before ++ gap ++ w) .between [b] rest :=
            .between (List.forall_mem_singleton.2 hblank)
          have htiles := ih hone
          rw [Position.after_concat _ hline] at htiles
          rwa [← List.append_assoc before]
      · rename_i hblank
        rw [List.append_assoc] at hnext
        have hword := hnext (.word (w := w ++ [b]) hgap (by simp)
          (List.forall_mem_append.2 ⟨hwhole, List.forall_mem_singleton.2 (hsolid hblank)⟩)
          (by simpa using hmark))
        rwa [List.reverse_append] at hword

theorem tiles_tokenize (source : Bytes) : Tiles [] source (tokenize source) :=
  tiles_tokensFrom (amid_nothing [] source)

/-! ## What a cut says -/

/-- Where the text of a token ends. -/
def Token.stop (t : Token) : Nat := t.pos.offset + t.written.length

/-- Where the text of the last token ends, or the start of the source if there is none. -/
def stopOf (tokens : List Token) : Nat := (tokens.getLast?.map Token.stop).getD 0

section Tiles

variable {before rest : Bytes} {ts : List Token}

/-- Where each token is cut out: behind the text of the token before it comes the gap. -/
theorem Tiles.split {front back : List Token} {t : Token}
    (h : Tiles before rest (front ++ t :: back)) :
    ∃ mid gap tail, rest = mid ++ gap ++ t.written ++ tail ∧
      (before ++ mid).length = (front.getLast?.map Token.stop).getD before.length ∧
      t.pos = .after (before ++ mid ++ gap) ∧ Gap gap t.kind ∧
      (t.kind ≠ .endOfFile → Piece t tail) := by
  induction front generalizing before rest with
  | nil =>
    cases h with
    | stop hgap => exact ⟨[], rest, [], by simp [Token.written, Token.endOfFile], by simp,
        by simp [Token.endOfFile], hgap, fun h => absurd rfl h⟩
    | @token _ gap rest _ _ hgap hpos hpiece _ =>
      exact ⟨[], gap, rest, by simp, by simp, by simpa using hpos, hgap, fun _ => hpiece⟩
  | cons u front ih =>
    rw [List.cons_append] at h
    generalize hmore : front ++ t :: back = more at h
    cases h with
    | stop _ => simp at hmore
    | @token _ gap rest _ _ _ hpos _ hrest =>
      subst hmore
      obtain ⟨mid, gap', tail, rfl, hlength, ht⟩ := ih hrest
      refine ⟨gap ++ u.written ++ mid, gap', tail, by simp, ?_, by simpa using ht⟩
      have hstop : u.stop = (before ++ gap ++ u.written).length := by
        rw [Token.stop, hpos]
        exact List.length_append.symm
      rw [← List.append_assoc, ← List.append_assoc, hlength, ← hstop, List.getLast?_cons]
      cases front.getLast? <;> rfl

theorem Tiles.ended (h : Tiles before rest ts) :
    ∃ front p, ts = front ++ [.endOfFile p] ∧ p.offset = (before ++ rest).length ∧
      ∀ t ∈ front, t.kind ≠ .endOfFile := by
  induction h with
  | stop _ => exact ⟨[], _, rfl, rfl, nofun⟩
  | @token before gap rest t ts _ _ hpiece _ ih =>
    obtain ⟨front, p, rfl, hp, hfront⟩ := ih
    refine ⟨t :: front, p, rfl, by rw [hp]; simp, List.forall_mem_cons.2 ⟨?_, hfront⟩⟩
    cases hpiece with
    | newline hkind _ => simp [hkind]
    | word _ hkind _ _ _ => exact hkind

theorem Piece.nonempty {t : Token} (h : Piece t rest) : 0 < t.written.length := by
  cases h with
  | newline _ hwritten => simp [hwritten]
  | word _ _ _ hword _ => exact List.length_pos_iff.2 hword.nonempty

theorem Tiles.increasing (h : Tiles before rest ts) :
    (∀ t ∈ ts, before.length ≤ t.pos.offset) ∧
      ts.Pairwise fun t u => t.pos.offset < u.pos.offset := by
  induction h with
  | stop _ => simp [Token.endOfFile, Position.after]
  | @token before gap rest t ts _ hpos hpiece _ ih =>
    have hoffset : t.pos.offset = before.length + gap.length := by
      rw [hpos, ← List.length_append]
      rfl
    have hlength := hpiece.nonempty
    have hlater : ∀ u ∈ ts, t.pos.offset < u.pos.offset := by
      intro u hu
      have hafter := ih.1 u hu
      simp only [List.length_append] at hafter
      omega
    refine ⟨List.forall_mem_cons.2 ⟨by omega, fun u hu => ?_⟩, .cons hlater ih.2⟩
    have := hlater u hu
    omega

theorem Blank.count_newline {gap : Bytes} (h : Blank gap) : gap.count 10 = 0 := by
  rw [List.count_eq_zero]
  intro hmem
  cases h 10 hmem

theorem Gap.count_newline {gap : Bytes} {kind : TokenKind} (h : Gap gap kind) :
    gap.count 10 = 0 := by
  cases h with
  | blank hgap => exact hgap.count_newline
  | comment hgap _ htext _ =>
    rw [List.count_append, hgap.count_newline, List.count_eq_zero.2 htext]

theorem Tiles.count_newline (h : Tiles before rest ts) :
    ts.countP (·.kind = .newline) = rest.count 10 := by
  induction h with
  | stop hgap => simp [hgap.count_newline, Token.endOfFile]
  | @token before gap rest t ts hgap _ hpiece _ ih =>
    rw [List.countP_cons, ih, List.count_append, List.count_append, hgap.count_newline]
    cases hpiece with
    | newline hkind hwritten => simp [hkind, hwritten, Nat.add_comm]
    | word hkind _ _ hword _ =>
      have hnone : t.written.count 10 = 0 :=
        List.count_eq_zero.2 fun hmem => by cases hword.solid 10 hmem
      simp [hkind, hnone]

end Tiles

/-! ## Whole sources -/

/-- The tokens account for each byte of the source. -/
structure Lossless (source : Bytes) (tokens : List Token) : Prop where
  /-- The tokens stand in the order of their texts. -/
  increasing : tokens.Pairwise fun t u => t.pos.offset < u.pos.offset
  /-- The last token, and no other, is the end of the source and stands there. -/
  ended : ∃ front p, tokens = front ++ [.endOfFile p] ∧ p.offset = source.length ∧
    ∀ t ∈ front, t.kind ≠ .endOfFile
  /-- The text of a token stands at its place. -/
  text : ∀ t ∈ tokens, t.written <+: source.drop t.pos.offset
  /-- It is a line end, or a word up to a blank, a line end or the end of the source. -/
  pieces : ∀ t ∈ tokens, t.kind ≠ .endOfFile → Piece t (source.drop t.stop)
  /-- Between two neighbours, and before the first token, there are only blanks and a comment. -/
  gaps : ∀ front t back, tokens = front ++ t :: back → stopOf front ≤ t.pos.offset ∧
    Gap (source.extract (stopOf front) t.pos.offset) t.kind
  /-- Each line end is a token. -/
  newlines : tokens.countP (·.kind = .newline) = source.count 10
  /-- Lines and columns are those of the offset. -/
  places : ∀ t ∈ tokens, t.pos = .after (source.take t.pos.offset)

/-- The tokens of any source account for all of its text. -/
theorem tokenize_lossless (source : Bytes) : Lossless source (tokenize source) := by
  have htiles := tiles_tokenize source
  have hcut : ∀ front t back, tokenize source = front ++ t :: back →
      ∃ mid gap tail, source = mid ++ gap ++ t.written ++ tail ∧ mid.length = stopOf front ∧
        t.pos = .after (mid ++ gap) ∧ Gap gap t.kind ∧ (t.kind ≠ .endOfFile → Piece t tail) :=
    fun front t back heq => (heq ▸ htiles : Tiles [] source (front ++ t :: back)).split
  have hmember : ∀ t ∈ tokenize source, ∃ text tail, source = text ++ t.written ++ tail ∧
      t.pos = .after text ∧ (t.kind ≠ .endOfFile → Piece t tail) := by
    intro t ht
    obtain ⟨front, back, heq⟩ := List.append_of_mem ht
    obtain ⟨mid, gap, tail, hsource, -, hpos, -, hpiece⟩ := hcut front t back heq
    exact ⟨mid ++ gap, tail, hsource, hpos, hpiece⟩
  constructor
  case increasing => exact htiles.increasing.2
  case ended => exact htiles.ended
  case newlines => exact htiles.count_newline
  case text =>
    intro t ht
    obtain ⟨text, tail, hsource, hpos, -⟩ := hmember t ht
    have hoffset : t.pos.offset = text.length := congrArg Position.offset hpos
    rw [hoffset, hsource, List.append_assoc, List.drop_left]
    exact List.prefix_append ..
  case pieces =>
    intro t ht hkind
    obtain ⟨text, tail, hsource, hpos, hpiece⟩ := hmember t ht
    have hstop : t.stop = (text ++ t.written).length := by
      rw [Token.stop, hpos, List.length_append]
      rfl
    rw [hstop, hsource, List.drop_left]
    exact hpiece hkind
  case gaps =>
    intro front t back heq
    obtain ⟨mid, gap, tail, hsource, hmid, hpos, hgap, -⟩ := hcut front t back heq
    have hoffset : t.pos.offset = mid.length + gap.length := by
      rw [hpos, ← List.length_append]
      rfl
    have hbetween : source.extract (stopOf front) t.pos.offset = gap := by
      rw [hoffset, ← hmid, hsource, List.extract_eq_take_drop, List.append_assoc, List.append_assoc,
        List.drop_left, Nat.add_sub_cancel_left, List.take_left]
    exact ⟨by omega, hbetween.symm ▸ hgap⟩
  case places =>
    intro t ht
    obtain ⟨text, tail, hsource, hpos, -⟩ := hmember t ht
    have hoffset : t.pos.offset = text.length := congrArg Position.offset hpos
    rw [hoffset, hsource, List.append_assoc, List.take_left]
    exact hpos

/-- Two slashes inside a word do not open a comment. -/
example : (tokenize "a//b // c\nd:").map Token.written =
    [("a//b" : Bytes), "\n", "d:", ""] := by
  decide +kernel

end MiniJvm.Assembly
