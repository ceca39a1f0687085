import Mathlib
import MiniJvm.Project.Manifest
import MiniJvm.Proofs.Basic

/-!
# The text of lock files

A string is escaped byte by byte, and each byte comes back from its escape (`Escaped`). So every
line is read as the heading or the field that it was written for, and the whole text as the
statements of its records (`parseStatements_text`), as long as the fields are texts.
-/

namespace MiniJvm

open Toml

/-- The fields of a record. -/
def LockedDep.texts (d : LockedDep) : List Bytes := [d.name, d.git, d.tag, d.commit, d.path]

/-- The fields of the record are well-formed texts. -/
def LockedDep.IsText (d : LockedDep) : Prop := ∀ s ∈ d.texts, Utf8.valid s = true

instance (d : LockedDep) : Decidable d.IsText := inferInstanceAs (Decidable (∀ _ ∈ _, _))

namespace Lock

/-! ## Escaped strings -/

/-- A byte that stands for itself between quotes. -/
def Visible (b : UInt8) : Prop := 32 ≤ b ∧ b ≠ 127 ∧ b ≠ 34 ∧ b ≠ 92

instance (b : UInt8) : Decidable (Visible b) := inferInstanceAs (Decidable (_ ∧ _))

/-- A byte stands for itself, or what follows a backslash stands for it. -/
inductive Escaped (b : UInt8) : Bytes → Prop where
  | self : Visible b → Escaped b [b]
  | hidden {c : UInt8} {more : Bytes} : b < 0x80 → 32 ≤ c ∧ c < 127 →
      (∀ x ∈ more, Visible x ∧ x < 127) →
      (∀ s, escape? (c :: (more ++ s)) = some ([b], more.length + 1)) →
      Escaped b (92 :: c :: more)

theorem not_newline {b : UInt8} (h : 32 ≤ b) : isNewline b = false := by
  rw [isNewline, Bool.or_eq_false_iff, beq_eq_false_iff_ne, beq_eq_false_iff_ne]
  constructor <;> rintro rfl <;> exact absurd h (by decide)

theorem visible_hexDigit : ∀ n < 16, Visible (Bytes.hexDigit n) ∧ Bytes.hexDigit n < 127 := by
  decide

theorem hexValue_hexDigit : ∀ n < 16, hexValue? (Bytes.hexDigit n) = some n := by decide

theorem hexOf_four (n : Nat) : Bytes.hexOf 4 n =
    [n / 16 / 16 / 16 % 16, n / 16 / 16 % 16, n / 16 % 16, n % 16].map Bytes.hexDigit := rfl

theorem codePoint_hexOf {b : UInt8} (h : b < 0x80) :
    codePoint? (Bytes.hexOf 4 b.toNat) = some [b] := by
  have hlow : b.toNat < 128 := UInt8.lt_iff_toNat_lt.1 h
  have hdigits : ∀ n, hexValue? (Bytes.hexDigit (n % 16)) = some (n % 16) := fun n =>
    hexValue_hexDigit _ (Nat.mod_lt _ (by decide))
  have hnumber : hexNumber? (Bytes.hexOf 4 b.toNat) = some b.toNat := by
    simp only [hexNumber?, hexOf_four, List.map_cons, List.map_nil, List.foldlM_cons,
      List.foldlM_nil, hdigits, Option.map_some, Option.bind_eq_bind, Option.bind_some,
      Option.pure_def, Option.some.injEq]
    omega
  rw [codePoint?, hnumber, Option.bind_some, if_pos (by simp; omega), Utf8.encode, if_pos hlow]
  simp

theorem escaped_escape (b : UInt8) : Escaped b (escape b) := by
  have hletter : ∀ c : UInt8, 32 ≤ c → c < 127 → b < 0x80 →
      (∀ s, escape? (c :: s) = some ([b], 1)) → Escaped b [92, c] := fun c hlow hhigh hb hmean =>
    .hidden hb ⟨hlow, hhigh⟩ nofun hmean
  unfold escape
  split
  case h_1 | h_2 | h_3 | h_4 | h_5 | h_6 | h_7 =>
    exact hletter _ (by decide) (by decide) (by decide) fun _ => rfl
  rename_i hquote hslash _ _ _ _ _
  split
  · rename_i hcontrol
    have hb : b < 0x80 := by
      rcases Bool.or_eq_true_iff.1 hcontrol with hb | hb
      · exact UInt8.lt_trans (of_decide_eq_true hb) (by decide)
      · rw [beq_iff_eq.1 hb]
        decide
    refine .hidden hb ⟨by decide, by decide⟩ (fun x hx => ?_) fun s => ?_
    · rw [hexOf_four] at hx
      obtain ⟨n, hn, rfl⟩ := List.mem_map.1 hx
      refine visible_hexDigit n ?_
      simp only [List.mem_cons, List.not_mem_nil, or_false] at hn
      omega
    · have htake : (Bytes.hexOf 4 b.toNat ++ s).take 4 = Bytes.hexOf 4 b.toNat :=
        List.take_left' rfl
      have hlong : ¬(Bytes.hexOf 4 b.toNat ++ s).length < 4 := by simp [hexOf_four]
      have hnumeric : numericEscape? 4 (Bytes.hexOf 4 b.toNat ++ s) = some ([b], 5) := by
        rw [numericEscape?, if_neg hlong, htake, codePoint_hexOf hb]
        rfl
      exact hnumeric
  · rename_i hplain
    obtain ⟨hlow, hdel⟩ := not_or.1 (mt Bool.or_eq_true_iff.2 hplain)
    refine .self ⟨UInt8.not_lt.1 (mt decide_eq_true hlow), mt beq_iff_eq.2 hdel, hquote, hslash⟩

theorem scanBasic_visible {front : Bytes} (h : ∀ b ∈ front, Visible b) (s : Bytes) :
    scanBasic (front ++ s) = (scanBasic s).map fun r => (front ++ r.1, r.2) := by
  induction front with
  | nil => simp
  | cons b front ih =>
    obtain ⟨hb, hfront⟩ := List.forall_mem_cons.1 h
    obtain ⟨hlow, -, hquote, hslash⟩ := hb
    rw [List.cons_append, scanBasic, ih hfront, if_neg (by simp [not_newline hlow])]
    · cases scanBasic s <;> rfl
    · exact hquote
    · rintro _ _ rfl
      exact absurd rfl hslash

theorem Escaped.scanBasic {b : UInt8} {e : Bytes} (h : Escaped b e) (s : Bytes) :
    scanBasic (e ++ s) = (scanBasic s).map fun r => (e ++ r.1, r.2) := by
  cases h with
  | self hb => exact scanBasic_visible (List.forall_mem_singleton.2 hb) s
  | hidden _ hc hmore _ =>
    rw [List.cons_append, List.cons_append, Toml.scanBasic,
      scanBasic_visible fun x hx => (hmore x hx).1, not_newline hc.1]
    cases Toml.scanBasic s <;> rfl

theorem scanBasic_text (value rest : Bytes) :
    scanBasic (value.flatMap escape ++ 34 :: rest) = some (value.flatMap escape, rest) := by
  induction value with
  | nil => rfl
  | cons b value ih =>
    rw [List.flatMap_cons, List.append_assoc, (escaped_escape b).scanBasic, ih]
    rfl

theorem unescapeAfter_skip (front s : Bytes) :
    unescapeAfter false front.length (front ++ s) = unescapeAfter false 0 s := by
  induction front with
  | nil => rfl
  | cons b front ih => exact ih

theorem Escaped.unescape {b : UInt8} {e : Bytes} (h : Escaped b e) (s : Bytes) :
    unescapeAfter false 0 (e ++ s) = (unescapeAfter false 0 s).map (b :: ·) := by
  cases h with
  | self hb =>
    obtain ⟨-, -, -, hslash⟩ := hb
    rw [List.singleton_append, unescapeAfter]
    exact hslash
  | @hidden c more _ _ _ hmean =>
    have hrest := unescapeAfter_skip (c :: more) s
    rw [List.length_cons] at hrest
    rw [List.cons_append, List.cons_append, unescapeAfter, if_neg Bool.false_ne_true]
    dsimp only
    rw [hmean]
    dsimp only
    rw [← List.cons_append, hrest]
    rfl

theorem unescape_text (value : Bytes) :
    unescapeAfter false 0 (value.flatMap escape) = some value := by
  induction value with
  | nil => rfl
  | cons b value ih =>
    rw [List.flatMap_cons, (escaped_escape b).unescape, ih]
    rfl

/-- What is escaped does not start with a quote. -/
theorem Escaped.head_ne {b : UInt8} {e s t : Bytes} (h : Escaped b e) : e ++ s ≠ 34 :: t := by
  cases h with
  | self hb => exact fun heq => hb.2.2.1 (List.cons.inj heq).1
  | hidden => exact fun heq => absurd (List.cons.inj heq).1 (by decide)

/-! ## Lines -/

/-- A key that needs no quotes. -/
def IsBare (key : Bytes) : Prop := key ≠ [] ∧ ∀ b ∈ key, inBareKey b = true

theorem string_text (value rest : Bytes) :
    string? (34 :: (value.flatMap escape ++ 34 :: 10 :: rest)) = some (value, 10 :: rest) := by
  have hbasic : basicString (value.flatMap escape ++ 34 :: 10 :: rest) =
      some (value, 10 :: rest) := by
    rw [basicString, scanBasic_text]
    dsimp only [Option.bind_eq_bind, Option.bind_some]
    rw [unescape_text]
    rfl
  cases value with
  | nil => rfl
  | cons b value =>
    rw [string?, hbasic]
    intro s hs
    rw [List.flatMap_cons, List.append_assoc] at hs
    exact (escaped_escape b).head_ne hs

theorem value_text (fuel : Nat) (value rest : Bytes) :
    value? (fuel + 1) (32 :: 34 :: (value.flatMap escape ++ 34 :: 10 :: rest)) =
      some (.scalar (.text value), 10 :: rest) := by
  have hscalar : scalar? (34 :: (value.flatMap escape ++ 34 :: 10 :: rest)) =
      some (.text value, 10 :: rest) := by
    rw [scalar?, if_pos (by decide), string_text]
    rfl
  have hvalue : ∀ s, value? (fuel + 1) (32 :: 34 :: s) =
      (scalar? (34 :: s)).map fun r => (.scalar r.1, r.2) := fun _ => rfl
  rw [hvalue, hscalar]
  rfl

theorem IsBare.cons {key : Bytes} (h : IsBare key) :
    ∃ b more, key = b :: more ∧ b ≠ 34 ∧ b ≠ 39 ∧ b ≠ 91 ∧ isBlank b = false ∧
      isNewline b = false ∧ b ≠ 35 := by
  obtain ⟨hne, hbare⟩ := h
  obtain ⟨b, more, rfl⟩ := List.exists_cons_of_ne_nil hne
  have hb : ∀ c, inBareKey c = false → b ≠ c := by
    rintro c hc rfl
    exact absurd (hbare b List.mem_cons_self) (ne_true_of_eq_false hc)
  refine ⟨b, more, rfl, hb 34 rfl, hb 39 rfl, hb 91 rfl, ?_, ?_, hb 35 rfl⟩
  · rw [isBlank, beq_false_of_ne (hb 32 rfl), beq_false_of_ne (hb 9 rfl), Bool.or_false]
  · rw [isNewline, beq_false_of_ne (hb 10 rfl), beq_false_of_ne (hb 13 rfl), Bool.or_false]

theorem keyPart_bare {key : Bytes} (hkey : IsBare key) {b : UInt8} (hb : inBareKey b = false)
    (rest : Bytes) : keyPart? (key ++ b :: rest) = some (key, b :: rest) := by
  have hspan : span inBareKey (key ++ b :: rest) = (key, b :: rest) := by
    rw [span, List.takeWhile_append_of_pos hkey.2, List.dropWhile_append_of_pos hkey.2,
      List.takeWhile_cons_of_neg (by simp [hb]), List.dropWhile_cons_of_neg (by simp [hb]),
      List.append_nil]
  obtain ⟨c, more, rfl, hquote, hsingle, -⟩ := hkey.cons
  rw [List.cons_append] at hspan ⊢
  rw [keyPart?, hspan]
  · rfl
  · exact fun _ heq => hquote (List.cons.inj heq).1
  · exact fun _ heq => hsingle (List.cons.inj heq).1

theorem skipBlanks_bare {key : Bytes} (hkey : IsBare key) (rest : Bytes) :
    skipBlanks (key ++ rest) = key ++ rest := by
  obtain ⟨c, more, rfl, -, -, -, hblank, -⟩ := hkey.cons
  exact List.dropWhile_cons_of_neg (by simp [hblank])

theorem path_bare {key : Bytes} (hkey : IsBare key) (fuel : Nat) (rest : Bytes) :
    path? (fuel + 1) (key ++ 32 :: 61 :: rest) = some ([key], 61 :: rest) := by
  rw [path?, skipBlanks_bare hkey, keyPart_bare hkey (by decide)]
  rfl

theorem assignment_of_path {fuel : Nat} {s rest after : Bytes} {path : List Bytes}
    {value : Written} (hpath : path? fuel s = some (path, 61 :: rest))
    (hvalue : value? fuel rest = some (value, after)) :
    assignment? (fuel + 1) s = some ((path, value), after) := by
  simp only [assignment?, hpath, Option.bind_eq_bind, Option.bind_some, hvalue]
  rfl

theorem statement_field {key : Bytes} (hkey : IsBare key) (fuel : Nat) (value rest : Bytes) :
    statement? (fuel + 2)
        (key ++ 32 :: 61 :: 32 :: 34 :: (value.flatMap escape ++ 34 :: 10 :: rest)) =
      some (.assign [key] (.scalar (.text value)), 10 :: rest) := by
  have hassign := assignment_of_path (path_bare hkey fuel _) (value_text fuel value rest)
  obtain ⟨c, more, rfl, -, -, hbracket, -⟩ := hkey.cons
  rw [List.cons_append] at hassign ⊢
  rw [statement?, hassign]
  · rfl
  · exact fun _ heq => hbracket (List.cons.inj heq).1
  · exact fun _ heq => hbracket (List.cons.inj heq).1

theorem statement_heading (fuel : Nat) (rest : Bytes) :
    statement? (fuel + 1) ("[[deps]]" ++ 10 :: rest) =
      some (.itemHeading ["deps"], 10 :: rest) := by
  have hbytes : ("[[deps]]" : Bytes) = 91 :: 91 :: (("deps" : Bytes) ++ [93, 93]) := by
    decide +kernel
  have hpath : path? (fuel + 1) (("deps" : Bytes) ++ 93 :: 93 :: 10 :: rest) =
      some ([("deps" : Bytes)], 93 :: 93 :: 10 :: rest) := by
    have hkey : IsBare "deps" := ⟨by decide +kernel, by decide +kernel⟩
    rw [path?, skipBlanks_bare hkey, keyPart_bare hkey (by decide)]
    rfl
  rw [hbytes, List.cons_append, List.cons_append, List.append_assoc, statement?]
  simp only [List.cons_append, List.nil_append, hpath, Option.bind_eq_bind, Option.bind_some]
  rfl

theorem statements_cons {fuel : Nat} {s rest after : Bytes} {first : Statement}
    (hs : skipSpace s = s) (hne : s ≠ []) (h : ∀ fuel, statement? (fuel + 2) s = some (first, rest))
    (hend : endLine? rest = some after) :
    statements? (fuel + 1) s = (statements? fuel after).map (first :: ·) := by
  obtain ⟨b, more, rfl⟩ := List.exists_cons_of_ne_nil hne
  rw [statements?, hs]
  simp only [h, Option.bind_eq_bind, Option.bind_some, hend]
  cases statements? fuel after <;> rfl

/-- A blank line says nothing. -/
theorem statements_newline (fuel : Nat) (s : Bytes) :
    statements? (fuel + 1) (10 :: s) = statements? (fuel + 1) s := by
  have hskip : skipSpace (10 :: s) = skipSpace s := rfl
  rw [statements?, statements?, hskip]

theorem skipSpace_bare {key : Bytes} (hkey : IsBare key) (rest : Bytes) :
    skipSpace (key ++ rest) = key ++ rest := by
  obtain ⟨c, more, rfl, -, -, -, hblank, hnewline, hcomment⟩ := hkey.cons
  simp [skipSpace, skipSpaceFrom, hblank, hnewline, hcomment]

theorem fieldLine_append (key value rest : Bytes) : fieldLine key value ++ rest =
    32 :: 32 :: (key ++ 32 :: 61 :: 32 :: 34 :: (value.flatMap escape ++ 34 :: 10 :: rest)) := by
  have hgap : ("  " : Bytes) = [32, 32] := by decide +kernel
  have hequals : (" = \"" : Bytes) = [32, 61, 32, 34] := by decide +kernel
  have hend : ("\"\n" : Bytes) = [34, 10] := by decide +kernel
  rw [fieldLine, hgap, hequals, hend]
  simp

theorem statements_field {key : Bytes} (hkey : IsBare key) (fuel : Nat) (value rest : Bytes) :
    statements? (fuel + 1) (fieldLine key value ++ rest) =
      (statements? fuel rest).map (.assign [key] (.scalar (.text value)) :: ·) := by
  have hskip : ∀ s, skipSpace (32 :: 32 :: s) = skipSpace s := fun _ => rfl
  have hbare : statements? (fuel + 1) (fieldLine key value ++ rest) = statements? (fuel + 1)
      (key ++ 32 :: 61 :: 32 :: 34 :: (value.flatMap escape ++ 34 :: 10 :: rest)) := by
    rw [fieldLine_append, statements?, statements?, hskip]
  rw [hbare]
  refine statements_cons (skipSpace_bare hkey _) ?_ (fun fuel => statement_field hkey fuel _ _) rfl
  simp

theorem statements_heading (fuel : Nat) (rest : Bytes) :
    statements? (fuel + 1) ("[[deps]]\n" ++ rest) =
      (statements? fuel rest).map (.itemHeading ["deps"] :: ·) := by
  have hbytes : ("[[deps]]\n" : Bytes) = ("[[deps]]" : Bytes) ++ [10] := by decide +kernel
  have hopen : ("[[deps]]" : Bytes) = 91 :: ("[deps]]" : Bytes) := by decide +kernel
  rw [hbytes, List.append_assoc]
  refine statements_cons ?_ ?_ (fun fuel => statement_heading (fuel + 1) rest) rfl
  · rw [hopen]
    rfl
  · rw [hopen]
    exact List.cons_ne_nil _ _

/-! ## Tables -/

/-- A field that is left out when it is empty. -/
def optional (key value : Bytes) : List (Bytes × Bytes) :=
  if value.isEmpty then [] else [(key, value)]

def fields (d : LockedDep) : List (Bytes × Bytes) :=
  ("name", d.name) :: (optional "git" d.git ++ optional "tag" d.tag ++
    optional "commit" d.commit ++ optional "path" d.path)

def keys : List Bytes := ["name", "git", "tag", "commit", "path"]

/-- A field as a statement. -/
def assigned (f : Bytes × Bytes) : Statement := .assign [f.1] (.scalar (.text f.2))

theorem optionalLine_eq (key value : Bytes) :
    optionalLine key value = (optional key value).flatMap fun f => fieldLine f.1 f.2 := by
  unfold optionalLine optional
  split <;> simp

theorem depText_eq (d : LockedDep) :
    depText d = "[[deps]]\n" ++ (fields d).flatMap fun f => fieldLine f.1 f.2 := by
  simp only [depText, fields, optionalLine_eq, List.flatMap_cons, List.flatMap_append,
    List.append_assoc]

theorem keys_fields (d : LockedDep) :
    ((fields d).map Prod.fst).Sublist keys := by
  have hoptional : ∀ key value, ((optional key value).map Prod.fst).Sublist [key] := by
    intro key value
    unfold optional
    split
    · exact List.nil_sublist _
    · exact List.Sublist.refl _
  simp only [fields, List.map_cons, List.map_append]
  exact ((((hoptional "git" d.git).append (hoptional "tag" d.tag)).append
    (hoptional "commit" d.commit)).append (hoptional "path" d.path)).cons_cons _

/-- What holds of the five keys holds of the keys that are written. -/
theorem forall_keys {P : Bytes → Prop} (h : ∀ key ∈ keys, P key) (d : LockedDep) :
    ∀ f ∈ fields d, P f.1 :=
  fun f hf => h f.1 ((keys_fields d).subset (List.mem_map_of_mem hf))

theorem bare_fields (d : LockedDep) : ∀ f ∈ fields d, IsBare f.1 := by
  have hkeys : ∀ key ∈ keys, key ≠ [] ∧ ∀ b ∈ key, inBareKey b = true := by decide +kernel
  exact forall_keys (P := IsBare) hkeys d

theorem statements_fields {fs : List (Bytes × Bytes)} (hbare : ∀ f ∈ fs, IsBare f.1) (fuel : Nat)
    (rest : Bytes) :
    statements? (fuel + fs.length) (fs.flatMap (fun f => fieldLine f.1 f.2) ++ rest) =
      (statements? fuel rest).map (fs.map assigned ++ ·) := by
  induction fs with
  | nil => simp
  | cons f fs ih =>
    obtain ⟨hf, hfs⟩ := List.forall_mem_cons.1 hbare
    rw [List.flatMap_cons, List.append_assoc, List.length_cons, ← Nat.add_assoc,
      statements_field hf, ih hfs, Option.map_map]
    rfl

def statementsOf (d : LockedDep) : List Statement :=
  .itemHeading ["deps"] :: (fields d).map assigned

theorem statements_dep (d : LockedDep) (fuel : Nat) (rest : Bytes) :
    statements? (fuel + (statementsOf d).length) (depText d ++ rest) =
      (statements? fuel rest).map (statementsOf d ++ ·) := by
  rw [depText_eq, List.append_assoc, statementsOf, List.length_cons, List.length_map,
    ← Nat.add_assoc, statements_heading, statements_fields (bare_fields d), Option.map_map]
  rfl

theorem statements_join (lock : Lock) (fuel : Nat) :
    statements? (fuel + 1 + (lock.flatMap statementsOf).length)
      (Bytes.join "\n" (lock.map depText)) = some (lock.flatMap statementsOf) := by
  have hnewline : ("\n" : Bytes) = [10] := by decide +kernel
  induction lock with
  | nil => rfl
  | cons d lock ih =>
    cases lock with
    | nil =>
      have hdep := statements_dep d (fuel + 1) []
      rw [List.append_nil] at hdep
      simpa [statements?, skipSpace, skipSpaceFrom, Bytes.join] using hdep
    | cons e lock =>
      rw [List.flatMap_cons, List.length_append, Nat.add_comm (statementsOf d).length,
        ← Nat.add_assoc, List.map_cons, List.map_cons, Bytes.join, hnewline, List.append_assoc,
        statements_dep, List.singleton_append, Nat.add_right_comm, statements_newline,
        Nat.add_right_comm, ← hnewline, ← List.map_cons, ih]
      rfl

theorem length_statementsOf (d : LockedDep) : (statementsOf d).length ≤ (depText d).length := by
  have hlines : ∀ fs : List (Bytes × Bytes),
      fs.length ≤ (fs.flatMap fun f => fieldLine f.1 f.2).length := by
    intro fs
    induction fs with
    | nil => exact Nat.le_refl _
    | cons f fs ih =>
      have hline := fieldLine_append f.1 f.2 []
      rw [List.append_nil] at hline
      rw [List.flatMap_cons, List.length_append, hline]
      simp only [List.length_cons]
      omega
  have hheading : ("[[deps]]\n" : Bytes).length = 9 := by decide +kernel
  have hfields := hlines (fields d)
  rw [depText_eq, statementsOf, List.length_cons, List.length_map, List.length_append, hheading]
  omega

theorem length_statements (lock : Lock) :
    (lock.flatMap statementsOf).length ≤ (Bytes.join "\n" (lock.map depText)).length := by
  induction lock with
  | nil => exact Nat.le_refl _
  | cons d lock ih =>
    have hd := length_statementsOf d
    rw [List.flatMap_cons, List.length_append]
    cases lock with
    | nil => simpa [Bytes.join] using hd
    | cons e lock =>
      rw [List.map_cons, List.map_cons, Bytes.join, ← List.map_cons, List.length_append,
        List.length_append]
      omega

theorem skipSpaceFrom_comment {line : Bytes} (h : ∀ b ∈ line, isNewline b = false) (s : Bytes) :
    skipSpaceFrom true (line ++ 10 :: s) = skipSpace s := by
  induction line with
  | nil => rfl
  | cons b line ih =>
    obtain ⟨hb, hline⟩ := List.forall_mem_cons.1 h
    rw [List.cons_append, skipSpaceFrom, hb]
    exact ih hline

theorem text_eq (lock : Lock) :
    text lock = 35 :: ((" Generated by ristretto. Do not edit." : Bytes) ++
      10 :: 10 :: Bytes.join "\n" (lock.map depText)) := by
  have hnote : ("# Generated by ristretto. Do not edit.\n\n" : Bytes) =
      35 :: ((" Generated by ristretto. Do not edit." : Bytes) ++ [10, 10]) := by decide +kernel
  rw [text, hnote, List.cons_append, List.append_assoc]
  rfl

theorem statements_text (lock : Lock) :
    statements? ((text lock).length + 1) (text lock) = some (lock.flatMap statementsOf) := by
  have hskip : skipSpace (text lock) = skipSpace (Bytes.join "\n" (lock.map depText)) := by
    have hsharp : ∀ s, skipSpace (35 :: s) = skipSpaceFrom true s := fun _ => rfl
    have hblank : ∀ s, skipSpace (10 :: s) = skipSpace s := fun _ => rfl
    rw [text_eq, hsharp, skipSpaceFrom_comment (by decide +kernel), hblank]
  have hlength := length_statements lock
  have hsame : statements? ((text lock).length + 1) (text lock) =
      statements? ((text lock).length + 1) (Bytes.join "\n" (lock.map depText)) := by
    rw [statements?, statements?, hskip]
  have henough : (lock.flatMap statementsOf).length ≤ (text lock).length := by
    rw [text, List.length_append]
    omega
  obtain ⟨fuel, hfuel⟩ := Nat.exists_eq_add_of_le' henough
  rw [hsame, hfuel, Nat.add_right_comm]
  exact statements_join lock fuel

/-! ## Well-formed texts -/

/-- A text that a document may hold. -/
structure Readable (s : Bytes) : Prop where
  valid : Utf8.valid s = true
  plain : ∀ b ∈ s, b = 10 ∨ 32 ≤ b ∧ b ≠ 127

theorem Readable.isPlain {s : Bytes} (h : Readable s) : isPlain s = true := by
  obtain ⟨-, h⟩ := h
  induction s with
  | nil => rfl
  | cons b s ih =>
    obtain ⟨hb, hs⟩ := List.forall_mem_cons.1 h
    rw [Toml.isPlain, ih hs]
    · rcases hb with rfl | ⟨hlow, hdel⟩ <;> simp_all
    · rintro rest rfl
      exact absurd hb (by decide)

theorem readable_of_ascii {s : Bytes}
    (h : ∀ b ∈ s, b < 0x80 ∧ (b = 10 ∨ 32 ≤ b ∧ b ≠ 127)) : Readable s :=
  ⟨Utf8.valid_of_ascii fun b hb => (h b hb).1, fun b hb => (h b hb).2⟩

theorem Readable.append {s t : Bytes} (hs : Readable s) (ht : Readable t) : Readable (s ++ t) :=
  ⟨Utf8.valid_append hs.valid ht.valid, fun b hb =>
    (List.mem_append.1 hb).elim (hs.plain b) (ht.plain b)⟩

theorem readable_flatMap {α : Type} {f : α → Bytes} {items : List α}
    (h : ∀ item ∈ items, Readable (f item)) : Readable (items.flatMap f) := by
  induction items with
  | nil => exact ⟨rfl, nofun⟩
  | cons item items ih =>
    obtain ⟨hitem, hitems⟩ := List.forall_mem_cons.1 h
    exact hitem.append (ih hitems)

theorem Escaped.plain {b : UInt8} {e : Bytes} (h : Escaped b e) : ∀ x ∈ e, 32 ≤ x ∧ x ≠ 127 := by
  cases h with
  | self hb => exact List.forall_mem_singleton.2 ⟨hb.1, hb.2.1⟩
  | hidden _ hc hmore _ =>
    refine List.forall_mem_cons.2 ⟨by decide, List.forall_mem_cons.2 ⟨⟨hc.1, ?_⟩, ?_⟩⟩
    · exact UInt8.ne_of_lt hc.2
    · exact fun x hx => ⟨(hmore x hx).1.1, (hmore x hx).1.2.1⟩

theorem Escaped.ascii {b : UInt8} {e : Bytes} (h : Escaped b e) (hb : b < 0x80) :
    ∀ x ∈ e, x < 0x80 := by
  have hhigh : ∀ {x : UInt8}, x < 127 → x < 0x80 := fun hx => UInt8.lt_trans hx (by decide)
  cases h with
  | self => exact List.forall_mem_singleton.2 hb
  | hidden _ hc hmore _ =>
    exact List.forall_mem_cons.2 ⟨by decide, List.forall_mem_cons.2
      ⟨hhigh hc.2, fun x hx => hhigh (hmore x hx).2⟩⟩

theorem Escaped.of_high {b : UInt8} {e : Bytes} (h : Escaped b e) (hb : 0x80 ≤ b) : e = [b] := by
  cases h with
  | self => rfl
  | hidden hlow => exact absurd hlow (UInt8.not_lt.2 hb)

theorem flatMap_escape_of_high {s : Bytes} (h : ∀ b ∈ s, 0x80 ≤ b) : s.flatMap escape = s := by
  induction s with
  | nil => rfl
  | cons b s ih =>
    obtain ⟨hb, hs⟩ := List.forall_mem_cons.1 h
    rw [List.flatMap_cons, (escaped_escape b).of_high hb, ih hs]
    rfl

theorem valid_escape {value : Bytes} (h : Utf8.valid value = true) :
    Utf8.valid (value.flatMap escape) = true := by
  induction hlength : value.length using Nat.strong_induction_on generalizing value with
  | _ n ih =>
    cases value with
    | nil => rfl
    | cons a rest =>
      obtain ⟨own, more, rfl, hown, hmore, htails, hascii⟩ := Utf8.valid_cons h
      have hfirst : Utf8.valid (escape a ++ own) = true := by
        by_cases ha : a < 0x80
        · rw [hascii ha, List.append_nil]
          exact Utf8.valid_of_ascii ((escaped_escape a).ascii ha)
        · rw [(escaped_escape a).of_high (UInt8.not_lt.1 ha)]
          exact hown
      rw [List.flatMap_cons, List.flatMap_append, flatMap_escape_of_high htails,
        ← List.append_assoc]
      refine Utf8.valid_append hfirst (ih more.length ?_ hmore rfl)
      rw [← hlength, List.length_cons, List.length_append]
      omega

theorem readable_escape {value : Bytes} (h : Utf8.valid value = true) :
    Readable (value.flatMap escape) := by
  refine ⟨valid_escape h, fun b hb => ?_⟩
  obtain ⟨a, -, hb⟩ := List.mem_flatMap.1 hb
  exact .inr ((escaped_escape a).plain b hb)

theorem readable_fieldLine {key value : Bytes} (hkey : Readable key)
    (hvalue : Utf8.valid value = true) : Readable (fieldLine key value) := by
  have hgap : Readable ("  " : Bytes) := readable_of_ascii (by decide +kernel)
  have hequals : Readable (" = \"" : Bytes) := readable_of_ascii (by decide +kernel)
  have hend : Readable ("\"\n" : Bytes) := readable_of_ascii (by decide +kernel)
  exact (((hgap.append hkey).append hequals).append (readable_escape hvalue)).append hend

theorem valid_fields {d : LockedDep} (h : d.IsText) : ∀ f ∈ fields d, Utf8.valid f.2 = true := by
  have hoptional : ∀ key value, value ∈ d.texts → ∀ f ∈ optional key value,
      Utf8.valid f.2 = true := by
    intro key value hvalue f hf
    unfold optional at hf
    split at hf
    · cases hf
    · rw [List.mem_singleton.1 hf]
      exact h value hvalue
  intro f hf
  simp only [fields, List.mem_cons, List.mem_append] at hf
  rcases hf with rfl | ((hf | hf) | hf) | hf
  · exact h d.name (by simp [LockedDep.texts])
  · exact hoptional _ _ (by simp [LockedDep.texts]) f hf
  · exact hoptional _ _ (by simp [LockedDep.texts]) f hf
  · exact hoptional _ _ (by simp [LockedDep.texts]) f hf
  · exact hoptional _ _ (by simp [LockedDep.texts]) f hf

theorem readable_depText {d : LockedDep} (h : d.IsText) : Readable (depText d) := by
  have hheading : Readable ("[[deps]]\n" : Bytes) := readable_of_ascii (by decide +kernel)
  have hkeys : ∀ key ∈ keys, ∀ b ∈ key, b < 0x80 ∧ (b = 10 ∨ 32 ≤ b ∧ b ≠ 127) := by
    decide +kernel
  have hreadable :=
    forall_keys (P := Readable) (fun key hkey => readable_of_ascii (hkeys key hkey)) d
  rw [depText_eq]
  exact hheading.append
    (readable_flatMap fun f hf => readable_fieldLine (hreadable f hf) (valid_fields h f hf))

theorem readable_join {texts : List Bytes} (h : ∀ s ∈ texts, Readable s) :
    Readable (Bytes.join "\n" texts) := by
  have hnewline : Readable ("\n" : Bytes) := readable_of_ascii (by decide +kernel)
  induction texts with
  | nil => exact ⟨rfl, nofun⟩
  | cons s texts ih =>
    obtain ⟨hs, htexts⟩ := List.forall_mem_cons.1 h
    cases texts with
    | nil => exact hs
    | cons t texts => exact (hs.append hnewline).append (ih htexts)

theorem readable_text {lock : Lock} (h : ∀ d ∈ lock, d.IsText) : Readable (text lock) := by
  have hnote : Readable ("# Generated by ristretto. Do not edit.\n\n" : Bytes) :=
    readable_of_ascii (by decide +kernel)
  exact hnote.append (readable_join (List.forall_mem_map.2 fun d hd => readable_depText (h d hd)))

theorem parseStatements_text {lock : Lock} (h : ∀ d ∈ lock, d.IsText) :
    parseStatements (text lock) = some (lock.flatMap statementsOf) := by
  have hreadable := readable_text h
  have hmark : dropMark (text lock) = text lock := by
    rw [text_eq]
    rfl
  rw [parseStatements, hmark, hreadable.valid, hreadable.isPlain]
  exact statements_text lock

end Lock

end MiniJvm
