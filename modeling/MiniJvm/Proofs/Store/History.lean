import Mathlib
import MiniJvm.Proofs.Store.Content
import MiniJvm.Proofs.Basic

/-!
# The history of a store

Saving fills two tables, one of images and one of their classes, and leaves out what is there under
its digest. Whatever has been saved and recorded before, the tables hold exactly the images that
were saved and the classes of all of them, each encoding once (`Keeping.Holds`). So every saved
image is found under its digest and every name of a saved class stands for a class of that name,
and nothing else is found (`archive_after`).
-/

namespace MiniJvm

/-! ## Digests -/

theorem Bytes.hexDigit_injective :
    ∀ m < 16, ∀ n < 16, Bytes.hexDigit m = Bytes.hexDigit n → m = n := by
  decide

theorem Bytes.hex_injective {a b : Bytes} (h : Bytes.hex a = Bytes.hex b) : a = b := by
  induction a generalizing b with
  | nil =>
    cases b with
    | nil => rfl
    | cons y b => cases h
  | cons x a ih =>
    cases b with
    | nil => cases h
    | cons y b =>
      simp only [Bytes.hex, List.flatMap_cons, List.cons_append, List.nil_append,
        List.cons.injEq] at h
      obtain ⟨hhigh, hlow, hrest⟩ := h
      have hx := x.toNat_lt
      have hy := y.toNat_lt
      have hhigh := hexDigit_injective _ (by omega) _ (by omega) hhigh
      have hlow := hexDigit_injective _ (by omega) _ (by omega) hlow
      rw [ih hrest, UInt8.toNat_inj.1 (by omega : x.toNat = y.toNat)]

/-- Different messages of a list have different digests. -/
def Digest.CollisionFree (messages : List Bytes) : Prop :=
  ∀ a ∈ messages, ∀ b ∈ messages, sha256 a = sha256 b → a = b

instance (messages : List Bytes) : Decidable (Digest.CollisionFree messages) :=
  inferInstanceAs (Decidable (∀ _ ∈ _, ∀ _ ∈ _, _))

theorem Digest.CollisionFree.mono {messages more : List Bytes} (h : CollisionFree more)
    (hsub : messages ⊆ more) : CollisionFree messages :=
  fun a ha b hb => h a (hsub ha) b (hsub hb)

theorem Digest.CollisionFree.eq_of_hex {messages : List Bytes} (h : CollisionFree messages)
    {a b : Bytes} (ha : a ∈ messages) (hb : b ∈ messages) (heq : hex a = hex b) : a = b :=
  h a ha b hb (Bytes.hex_injective heq)

namespace Store

/-! ## Tables of contents -/

/-- How contents of a kind are kept in rows under their digests. -/
structure Keeping (κ ρ : Type) where
  digest : κ → Bytes
  rowDigest : ρ → Bytes
  /-- The row was made for the content. -/
  Made : κ → ρ → Prop
  digest_of_made : ∀ {k : κ} {row : ρ}, Made k row → rowDigest row = digest k

def imageKeeping : Keeping Image ImageRow where
  digest := Image.digest
  rowDigest := ImageRow.digest
  Made i row := row.digest = i.digest ∧ row.body = i.marshal
  digest_of_made h := h.1

def classKeeping : Keeping ClassDef ClassRow where
  digest := Image.classDigest
  rowDigest := ClassRow.digest
  Made c row := row.digest = Image.classDigest c ∧ row.name = c.name ∧
    row.body = Image.marshalClass c
  digest_of_made h := h.1

namespace Keeping

variable {κ ρ : Type} {p : Keeping κ ρ} {contents : List κ} {rows : List ρ}

/-- The rows are those of the contents, one for each digest. -/
structure Holds (p : Keeping κ ρ) (contents : List κ) (rows : List ρ) : Prop where
  made : ∀ row ∈ rows, ∃ k ∈ contents, p.Made k row
  kept : ∀ k ∈ contents, ∃ row ∈ rows, p.Made k row
  once : (rows.map p.rowDigest).Nodup

/-- Contents of one digest have their rows in common. -/
def Separates (p : Keeping κ ρ) (contents : List κ) : Prop :=
  ∀ k ∈ contents, ∀ k' ∈ contents, p.digest k = p.digest k' → ∀ row, p.Made k row → p.Made k' row

theorem Separates.mono {more : List κ} (h : p.Separates more) (hsub : contents ⊆ more) :
    p.Separates contents :=
  fun k hk k' hk' => h k (hsub hk) k' (hsub hk')

/-- The table with a row for one more content, unless there is one under its digest. -/
def add (p : Keeping κ ρ) (rows : List ρ) (digest : Bytes) (row : ρ) : List ρ :=
  if rows.any (p.rowDigest · == digest) then rows else rows ++ [row]

theorem holds_nil (p : Keeping κ ρ) : p.Holds [] [] := ⟨nofun, nofun, List.nodup_nil⟩

theorem any_iff {digest : Bytes} :
    rows.any (p.rowDigest · == digest) = true ↔ digest ∈ rows.map p.rowDigest := by
  simp

/-- The row under the digest of a content is its own. -/
theorem Holds.made_of_digest (h : p.Holds contents rows) {k : κ}
    (hsep : p.Separates (contents ++ [k])) {row : ρ} (hrow : row ∈ rows)
    (hdigest : p.rowDigest row = p.digest k) : p.Made k row := by
  obtain ⟨k', hk', hmade⟩ := h.made row hrow
  exact hsep k' (List.mem_append_left _ hk') k (by simp)
    ((p.digest_of_made hmade).symm.trans hdigest) row hmade

theorem Holds.add (h : p.Holds contents rows) {k : κ} (hsep : p.Separates (contents ++ [k]))
    {row : ρ} (hrow : p.Made k row) : p.Holds (contents ++ [k]) (p.add rows (p.digest k) row) := by
  have hmade : ∀ row ∈ rows, ∃ k' ∈ contents ++ [k], p.Made k' row := by
    intro row hrow
    obtain ⟨k', hk', hmade⟩ := h.made row hrow
    exact ⟨k', List.mem_append_left _ hk', hmade⟩
  unfold Keeping.add
  split
  · rename_i hany
    refine ⟨hmade, fun k' hk' => ?_, h.once⟩
    rcases List.mem_append.1 hk' with hk' | hk'
    · exact h.kept k' hk'
    · cases List.mem_singleton.1 hk'
      obtain ⟨there, hthere, hdigest⟩ := List.mem_map.1 (any_iff.1 hany)
      exact ⟨there, hthere, h.made_of_digest hsep hthere hdigest⟩
  · rename_i hnone
    refine ⟨fun row' hrow' => ?_, fun k' hk' => ?_, ?_⟩
    · rcases List.mem_append.1 hrow' with hrow' | hrow'
      · exact hmade row' hrow'
      · cases List.mem_singleton.1 hrow'
        exact ⟨k, by simp, hrow⟩
    · rcases List.mem_append.1 hk' with hk' | hk'
      · obtain ⟨there, hthere, hmade⟩ := h.kept k' hk'
        exact ⟨there, List.mem_append_left _ hthere, hmade⟩
      · cases List.mem_singleton.1 hk'
        exact ⟨row, by simp, hrow⟩
    · rw [List.map_append, List.nodup_append]
      refine ⟨h.once, List.nodup_singleton _, fun a ha b hb hab => hnone (any_iff.2 ?_)⟩
      rw [List.map_singleton, List.mem_singleton, p.digest_of_made hrow] at hb
      rwa [← hb, ← hab]

theorem Holds.any_of_mem (h : p.Holds contents rows) {k : κ} (hk : k ∈ contents) :
    rows.any (p.rowDigest · == p.digest k) = true := by
  obtain ⟨row, hrow, hmade⟩ := h.kept k hk
  exact any_iff.2 (List.mem_map.2 ⟨row, hrow, p.digest_of_made hmade⟩)

end Keeping

/-! ## Saving -/

theorem classes_saveClass (s : Store) (now : Int64) (c : ClassDef) :
    (s.saveClass now c).classes = classKeeping.add s.classes (Image.classDigest c)
      ⟨Image.classDigest c, c.name, Image.marshalClass c, now⟩ := by
  unfold saveClass Keeping.add classKeeping
  dsimp only
  split <;> rfl

theorem classes_saveImage (s : Store) (now : Int64) (i : Image) :
    (s.saveImage now i).2.classes =
      (i.classList.foldl (fun s c => s.saveClass now c) s).classes := by
  unfold saveImage saveBody
  split <;> rfl

theorem holds_saveClasses {s : Store} {contents classes : List ClassDef} (now : Int64)
    (h : classKeeping.Holds contents s.classes)
    (hsep : classKeeping.Separates (contents ++ classes)) :
    classKeeping.Holds (contents ++ classes)
      (classes.foldl (fun s c => s.saveClass now c) s).classes := by
  induction classes generalizing s contents with
  | nil => simpa using h
  | cons c rest ih =>
    rw [List.append_cons] at hsep ⊢
    rw [List.foldl_cons]
    refine ih ?_ hsep
    rw [classes_saveClass]
    refine h.add (hsep.mono (List.subset_append_left _ _)) ⟨rfl, rfl, rfl⟩

/-- The contents that saving images hashes. -/
def encodings (images : List Image) : List Bytes :=
  images.map Image.marshal ++ (images.flatMap Image.classList).map Image.marshalClass

theorem encodings_append_subset (images more : List Image) :
    encodings images ⊆ encodings (images ++ more) := by
  intro body hbody
  simp only [encodings, List.map_append, List.flatMap_append, List.mem_append] at hbody ⊢
  exact hbody.imp .inl .inl

variable {images : List Image}

/-- Images of one digest have the same bytes. -/
theorem marshal_eq_of_digest (hfree : Digest.CollisionFree (encodings images)) {i j : Image}
    (hi : i ∈ images) (hj : j ∈ images) (h : i.digest = j.digest) : i.marshal = j.marshal := by
  have hmem : ∀ k ∈ images, k.marshal ∈ encodings images :=
    fun k hk => List.mem_append_left _ (List.mem_map_of_mem hk)
  exact hfree.eq_of_hex (hmem i hi) (hmem j hj) h

/-- Classes of one digest have the same content. -/
theorem normal_eq_of_classDigest (hfree : Digest.CollisionFree (encodings images))
    (hstorable : ∀ i ∈ images, i.Storable) {c d : ClassDef}
    (hc : c ∈ images.flatMap Image.classList) (hd : d ∈ images.flatMap Image.classList)
    (h : Image.classDigest c = Image.classDigest d) : c.normal = d.normal := by
  have hmem : ∀ k ∈ images.flatMap Image.classList, Image.marshalClass k ∈ encodings images :=
    fun k hk => List.mem_append_right _ (List.mem_map_of_mem hk)
  have heach : ∀ k ∈ images.flatMap Image.classList, k.Storable := by
    intro k hk
    obtain ⟨i, hi, hk⟩ := List.mem_flatMap.1 hk
    exact (hstorable i hi).each k hk
  exact (Image.marshalClass_eq_iff (heach c hc) (heach d hd)).1
    (hfree.eq_of_hex (hmem c hc) (hmem d hd) h)

theorem separates_images (hfree : Digest.CollisionFree (encodings images)) :
    imageKeeping.Separates images := by
  rintro i hi j hj hdigest row ⟨hrow, hbody⟩
  exact ⟨hrow.trans hdigest, hbody.trans (marshal_eq_of_digest hfree hi hj hdigest)⟩

theorem separates_classes (hfree : Digest.CollisionFree (encodings images))
    (hstorable : ∀ i ∈ images, i.Storable) :
    classKeeping.Separates (images.flatMap Image.classList) := by
  rintro c hc d hd hdigest row ⟨hrow, hname, hbody⟩
  have hnormal := normal_eq_of_classDigest hfree hstorable hc hd hdigest
  have hnames : c.normal.name = d.normal.name := congrArg ClassDef.name hnormal
  have hbytes : Image.marshalClass c = Image.marshalClass d := by
    rw [← Image.marshalClass_normal c, hnormal, Image.marshalClass_normal]
  exact ⟨hrow.trans hdigest, hname.trans hnames, hbody.trans hbytes⟩

/-- The tables hold the images and their classes. -/
structure Records (s : Store) (images : List Image) : Prop where
  imageRows : imageKeeping.Holds images s.images
  classRows : classKeeping.Holds (images.flatMap Image.classList) s.classes

theorem records_empty : Records {} [] := ⟨Keeping.holds_nil _, Keeping.holds_nil _⟩

theorem Records.addressed {s : Store} (h : s.Records images) : s.Addressed := by
  intro row hrow
  obtain ⟨i, -, hdigest, hbody⟩ := h.imageRows.made row hrow
  rw [hdigest, hbody]
  rfl

theorem Records.saveImage {s : Store} (h : s.Records images) (now : Int64) {i : Image}
    (hstorable : ∀ j ∈ images ++ [i], j.Storable)
    (hfree : Digest.CollisionFree (encodings (images ++ [i]))) :
    (s.saveImage now i).2.Records (images ++ [i]) := by
  constructor
  · rw [images_saveImage]
    exact h.imageRows.add (separates_images hfree) ⟨rfl, rfl⟩
  · have hsep := separates_classes hfree hstorable
    rw [List.flatMap_append, List.flatMap_singleton] at hsep ⊢
    rw [classes_saveImage]
    exact holds_saveClasses now h.classRows hsep

/-- An image of the same bytes is not saved again, and neither is any class of it. -/
theorem Records.saveImage_again {s : Store} (h : s.Records images) (now : Int64) {i j : Image}
    (hi : i ∈ images) (historable : i.Storable) (hjstorable : j.Storable)
    (hbytes : j.marshal = i.marshal) : s.saveImage now j = (i.digest, s) := by
  have hclass : ∀ c ∈ j.classList, s.saveClass now c = s := by
    intro c hc
    have hnormal := (Image.marshal_eq_iff hjstorable historable).1 hbytes
    have hlists := congrArg Image.classList hnormal
    rw [Image.classList_normal, Image.classList_normal] at hlists
    have hin : c.normal ∈ i.classList.map ClassDef.normal :=
      hlists ▸ List.mem_map_of_mem hc
    obtain ⟨d, hd, hsame⟩ := List.mem_map.1 hin
    have hdigest : Image.classDigest c = Image.classDigest d := by
      rw [Image.classDigest, Image.classDigest, ← Image.marshalClass_normal c, ← hsame,
        Image.marshalClass_normal]
    refine if_pos ?_
    rw [hdigest]
    exact h.classRows.any_of_mem (List.mem_flatMap.2 ⟨i, hi, hd⟩)
  have hclasses : ∀ cs ⊆ j.classList, cs.foldl (fun s c => s.saveClass now c) s = s := by
    intro cs hcs
    induction cs with
    | nil => rfl
    | cons c cs ih =>
      obtain ⟨hc, hcs⟩ := List.cons_subset.1 hcs
      rw [List.foldl_cons, hclass c hc, ih hcs]
  have hdigest : j.digest = i.digest := congrArg Digest.hex hbytes
  rw [Store.saveImage, hclasses _ (List.Subset.refl _), saveBody, hdigest]
  exact congrArg _ (if_pos (h.imageRows.any_of_mem hi))

/-! ## Finding -/

theorem loadImage_of_records {s : Store} (h : s.Records images)
    (hfree : Digest.CollisionFree (encodings images)) {i : Image} (hi : i ∈ images)
    (hstorable : i.Storable) : s.loadImage i.digest = .ok i.normal := by
  refine loadImage_of_keeps ?_ hstorable
  obtain ⟨row, hrow, hmade⟩ := h.imageRows.kept i hi
  have hsome : (s.images.find? (·.digest == i.digest)).isSome = true :=
    List.find?_isSome.2 ⟨row, hrow, beq_iff_eq.2 hmade.1⟩
  obtain ⟨found, hfound⟩ := Option.isSome_iff_exists.1 hsome
  obtain ⟨j, hj, hdigest, hbody⟩ := h.imageRows.made found (List.mem_of_find?_eq_some hfound)
  have hfound' : found.digest = i.digest := by simpa using List.find?_some hfound
  have hsep := separates_images hfree j hj i hi (hdigest.symm.trans hfound') found ⟨hdigest, hbody⟩
  exact ⟨found, hfound, hsep.2⟩

theorem loadImage_missing {s : Store} (h : s.Records images) {digest : Bytes}
    (hnone : ∀ i ∈ images, i.digest ≠ digest) :
    s.loadImage digest = .error (.imageNotFound (some digest)) := by
  have hfind : s.images.find? (·.digest == digest) = none := by
    rw [List.find?_eq_none]
    intro row hrow heq
    obtain ⟨i, hi, hdigest, -⟩ := h.imageRows.made row hrow
    exact hnone i hi (hdigest.symm.trans (beq_iff_eq.1 heq))
  rw [loadImage, hfind]

/-- There is a newest row unless there are no rows. -/
theorem newest_spec {α : Type} (time : α → Int64) (rows : List α) :
    (newest time rows = none ∧ rows = []) ∨ ∃ row ∈ rows, newest time rows = some row := by
  induction rows using List.reverseRecOn with
  | nil => exact .inl ⟨rfl, rfl⟩
  | append_singleton rows row ih =>
    have hlast : row ∈ rows ++ [row] := List.mem_append_right _ (List.mem_singleton_self row)
    unfold newest at ih ⊢
    rw [List.foldl_append]
    rcases ih with ⟨hnone, -⟩ | ⟨best, hbest, hnewest⟩
    · rw [hnone]
      exact .inr ⟨row, hlast, rfl⟩
    · rw [hnewest, List.foldl_cons, List.foldl_nil]
      dsimp only
      split
      · exact .inr ⟨row, hlast, rfl⟩
      · exact .inr ⟨best, List.mem_append_left _ hbest, rfl⟩

/-- A name stands for a class of an image, or no class has it. -/
theorem loadClass_of_records {s : Store} (h : s.Records images)
    (hstorable : ∀ i ∈ images, i.Storable) (name : Bytes) :
    (∃ i ∈ images, ∃ c ∈ i.classList, c.name = name ∧ s.loadClass name = .ok c.normal) ∨
      (∀ i ∈ images, ∀ c ∈ i.classList, c.name ≠ name) ∧
        s.loadClass name = .error (.classNotFound name) := by
  unfold loadClass
  rcases newest_spec ClassRow.savedAt (s.classes.filter (·.name == name)) with
    ⟨hnone, hempty⟩ | ⟨row, hrow, hnewest⟩
  · rw [hnone]
    refine .inr ⟨fun i hi c hc hname => ?_, rfl⟩
    obtain ⟨row, hrow, -, hrowname, -⟩ := h.classRows.kept c (List.mem_flatMap.2 ⟨i, hi, hc⟩)
    exact List.filter_eq_nil_iff.1 hempty row hrow (beq_iff_eq.2 (hrowname.trans hname))
  · rw [hnewest]
    obtain ⟨hmem, hname⟩ := List.mem_filter.1 hrow
    obtain ⟨c, hc, -, hrowname, hbody⟩ := h.classRows.made row hmem
    obtain ⟨i, hi, hc⟩ := List.mem_flatMap.1 hc
    have hread := Image.unmarshalClass_marshalClass ((hstorable i hi).each c hc)
    refine .inl ⟨i, hi, c, hc, hrowname.symm.trans (beq_iff_eq.1 hname), ?_⟩
    dsimp only
    rw [hbody, hread]

theorem classNames_of_records {s : Store} (h : s.Records images) :
    s.classNames.Pairwise Bytes.Before ∧
      ∀ name, name ∈ s.classNames ↔ ∃ i ∈ images, ∃ c ∈ i.classList, c.name = name := by
  refine ⟨Bytes.sort_increasing (Bytes.nodup_eraseDups _), fun name => ?_⟩
  rw [classNames, Bytes.mem_sort, List.mem_eraseDups, List.mem_map]
  constructor
  · rintro ⟨row, hrow, rfl⟩
    obtain ⟨c, hc, -, hname, -⟩ := h.classRows.made row hrow
    obtain ⟨i, hi, hc⟩ := List.mem_flatMap.1 hc
    exact ⟨i, hi, c, hc, hname.symm⟩
  · rintro ⟨i, hi, c, hc, rfl⟩
    obtain ⟨row, hrow, -, hname, -⟩ := h.classRows.kept c (List.mem_flatMap.2 ⟨i, hi, hc⟩)
    exact ⟨row, hrow, hname⟩

theorem recordRun_eq {s s' : Store} {fresh : Bytes} {r r' : RunRecord}
    (h : s.recordRun fresh r = .ok (r', s')) : ∃ runs, s' = { s with runs } := by
  unfold recordRun at h
  dsimp only at h
  split at h
  · cases h
  · cases h
    exact ⟨_, rfl⟩

end Store

/-! ## Histories -/

namespace Session

/-- What may be asked of a store. -/
inductive Call where
  | save (now : Int64) (i : Image)
  | record (fresh : Bytes) (r : RunRecord)

namespace Call

def image? : Call → Option Image
  | .save _ i => some i
  | .record _ _ => none

end Call

/-- The session after a call; one that is refused changes nothing. -/
def perform (s : Session) : Call → Session
  | .save now i =>
    match s.saveImage now i with
    | .ok (_, s') => s'
    | .error _ => s
  | .record fresh r =>
    match s.recordRun fresh r with
    | .ok (_, s') => s'
    | .error _ => s

def performAll (s : Session) (calls : List Call) : Session := calls.foldl perform s

def saved (calls : List Call) : List Image := calls.filterMap Call.image?

theorem saved_concat (calls : List Call) (call : Call) :
    saved (calls ++ [call]) = saved calls ++ call.image?.toList := by
  rw [saved, List.filterMap_append, saved]
  cases call <;> rfl

/-- A session that can save, with the images saved in its store. -/
structure Recording (s : Session) (images : List Image) : Prop where
  isOpen : s.isOpen = true
  writable : s.readOnly = false
  records : s.store.Records images

variable {s : Session} {images : List Image}

theorem Recording.working (h : s.Recording images) : s.Working :=
  ⟨h.isOpen, h.writable, h.records.addressed⟩

theorem Working.loadClass (h : s.Working) (name : Bytes) :
    s.loadClass name = s.store.loadClass name := by
  unfold Session.loadClass
  rw [h.check]
  rfl

/-- To record a run changes nothing but the runs. -/
theorem perform_record (s : Session) (fresh : Bytes) (r : RunRecord) :
    ∃ runs, s.perform (.record fresh r) = { s with store := { s.store with runs } } := by
  rw [perform]
  cases hrecord : s.recordRun fresh r with
  | error e => exact ⟨s.store.runs, rfl⟩
  | ok recorded =>
    obtain ⟨store, hs', hstore⟩ := recorded_eq hrecord
    obtain ⟨runs, rfl⟩ := Store.recordRun_eq hstore
    exact ⟨runs, hs'⟩

theorem Recording.perform (h : s.Recording images) (call : Call)
    (hstorable : ∀ i ∈ images ++ call.image?.toList, i.Storable)
    (hfree : Digest.CollisionFree (Store.encodings (images ++ call.image?.toList))) :
    (s.perform call).Recording (images ++ call.image?.toList) := by
  cases call with
  | save now i =>
    rw [Session.perform, h.working.saveImage]
    exact ⟨h.isOpen, h.writable, h.records.saveImage now hstorable hfree⟩
  | record fresh r =>
    obtain ⟨runs, hrecord⟩ := perform_record s fresh r
    rw [Call.image?, Option.toList_none, List.append_nil, hrecord]
    exact ⟨h.isOpen, h.writable, h.records.imageRows, h.records.classRows⟩

theorem Recording.performAll (hs : s.Recording []) (calls : List Call)
    (hstorable : ∀ i ∈ saved calls, i.Storable)
    (hfree : Digest.CollisionFree (Store.encodings (saved calls))) :
    (s.performAll calls).Recording (saved calls) := by
  induction calls using List.reverseRecOn with
  | nil => exact hs
  | append_singleton calls call ih =>
    rw [saved_concat] at hstorable hfree ⊢
    rw [Session.performAll, List.foldl_append]
    exact (ih (fun i hi => hstorable i (List.mem_append_left _ hi))
      (hfree.mono (Store.encodings_append_subset _ _))).perform call hstorable hfree

/-! ### What a session has -/

/-- What can be found in a session in which these images were saved. -/
structure Archive (s : Session) (images : List Image) : Prop where
  /-- Every image can be saved, which gives its digest. -/
  saves : ∀ now i, ∃ s', s.saveImage now i = .ok (i.digest, s')
  /-- A saved image is loaded from under its digest. -/
  loads : ∀ i ∈ images, s.loadImage i.digest = .ok i.normal
  /-- Nothing else is loaded. -/
  loadsNothingElse : ∀ digest, (∀ i ∈ images, i.digest ≠ digest) →
    s.loadImage digest = .error (.imageNotFound (some digest))
  /-- To save the bytes of a saved image again gives its digest and changes nothing. -/
  savesOnce : ∀ i ∈ images, ∀ j : Image, j.Storable → j.marshal = i.marshal →
    j.digest = i.digest ∧ ∀ now, s.saveImage now j = .ok (i.digest, s)
  /-- Every class of a saved image has a row. -/
  classes : ∀ i ∈ images, ∀ c ∈ i.classList, ∃ row ∈ s.store.classes,
    row.digest = Image.classDigest c ∧ row.name = c.name ∧ row.body = Image.marshalClass c
  /-- There are no other rows. -/
  onlyClasses : ∀ row ∈ s.store.classes, ∃ i ∈ images, ∃ c ∈ i.classList,
    row.digest = Image.classDigest c ∧ row.name = c.name ∧ row.body = Image.marshalClass c
  /-- No two rows are of the same bytes. -/
  classesOnce : (s.store.classes.map ClassRow.body).Nodup
  /-- The names of the classes are listed in byte order, each once. -/
  names : ∃ names, s.classNames = .ok names ∧ names.Pairwise Bytes.Before ∧
    ∀ name, name ∈ names ↔ ∃ i ∈ images, ∃ c ∈ i.classList, c.name = name
  /-- Under such a name there is a class of that name. -/
  loadsClass : ∀ i ∈ images, ∀ c ∈ i.classList, ∃ j ∈ images, ∃ d ∈ j.classList,
    d.name = c.name ∧ s.loadClass c.name = .ok d.normal
  /-- Under no other name there is a class. -/
  loadsNoOtherClass : ∀ name, (∀ i ∈ images, ∀ c ∈ i.classList, c.name ≠ name) →
    s.loadClass name = .error (.classNotFound name)

theorem Recording.archive (h : s.Recording images) (hstorable : ∀ i ∈ images, i.Storable)
    (hfree : Digest.CollisionFree (Store.encodings images)) : s.Archive images where
  saves now i := ⟨_, h.working.saveImage now i⟩
  loads i hi := by
    rw [h.working.loadImage]
    exact Store.loadImage_of_records h.records hfree hi (hstorable i hi)
  loadsNothingElse digest hnone := by
    rw [h.working.loadImage]
    exact Store.loadImage_missing h.records hnone
  savesOnce i hi j hj hbytes := by
    have hdigest : j.digest = i.digest := congrArg Digest.hex hbytes
    refine ⟨hdigest, fun now => ?_⟩
    rw [h.working.saveImage, h.records.saveImage_again now hi (hstorable i hi) hj hbytes, hdigest]
  classes i hi c hc := h.records.classRows.kept c (List.mem_flatMap.2 ⟨i, hi, hc⟩)
  onlyClasses row hrow := by
    obtain ⟨c, hc, hmade⟩ := h.records.classRows.made row hrow
    obtain ⟨i, hi, hc⟩ := List.mem_flatMap.1 hc
    exact ⟨i, hi, c, hc, hmade⟩
  classesOnce := by
    have hdigests : s.store.classes.map ClassRow.digest =
        (s.store.classes.map ClassRow.body).map Digest.hex := by
      rw [List.map_map]
      refine List.map_congr_left fun row hrow => ?_
      obtain ⟨c, -, hdigest, -, hbody⟩ := h.records.classRows.made row hrow
      rw [Function.comp_apply, hdigest, hbody, Image.classDigest]
    exact (hdigests ▸ h.records.classRows.once : (List.map _ _).Nodup).of_map
  names := by
    refine ⟨s.store.classNames, ?_, Store.classNames_of_records h.records⟩
    rw [Session.classNames, h.working.check]
    rfl
  loadsClass i hi c hc := by
    rw [h.working.loadClass]
    rcases Store.loadClass_of_records h.records hstorable c.name with hfound | ⟨hnone, -⟩
    · exact hfound
    · exact absurd rfl (hnone i hi c hc)
  loadsNoOtherClass name hnone := by
    rw [h.working.loadClass]
    rcases Store.loadClass_of_records h.records hstorable name with ⟨i, hi, c, hc, hname, -⟩ | h
    · exact absurd hname (hnone i hi c hc)
    · exact h.2

/-- Whatever was saved and recorded in a store that was empty, what is found in it are the saved
images under their digests and the classes of these images, provided that all of them can be
stored and that no two of their encodings have one digest. -/
theorem archive_after (hopen : s.isOpen = true) (hwritable : s.readOnly = false)
    (hempty : s.store = {}) (calls : List Call) (hstorable : ∀ i ∈ saved calls, i.Storable)
    (hfree : Digest.CollisionFree (Store.encodings (saved calls))) :
    (s.performAll calls).Archive (saved calls) := by
  have hstart : s.Recording [] := ⟨hopen, hwritable, hempty ▸ Store.records_empty⟩
  exact (hstart.performAll calls hstorable hfree).archive hstorable hfree

/-- A class with the other zero, of which only the one is kept. -/
def constant : ClassDef :=
  { name := "K", pool := some [.placeholder, .double ⟨0x8000000000000000⟩] }

def plain : ClassDef := { name := "A", methods := some [⟨"f", "()V", 0, 0, none⟩] }

/-- An image with both classes, one with the second only, and the first again; one name of a run is
given twice. -/
def shelf : List Call :=
  [.save 5 (.ofClasses "A.f:()V" (some [constant, plain])), .record "1" {},
    .save 3 (.ofClasses [] (some [plain])), .record "1" {},
    .save 9 (.ofClasses "A.f:()V" (some [constant, plain]))]

theorem archive_after_shelf :
    ((inMemory "runs.db").performAll shelf).Archive (saved shelf) ∧
      (saved shelf).length = 3 ∧ ((inMemory "runs.db").performAll shelf).store.images.length = 2 ∧
      ((inMemory "runs.db").performAll shelf).loadClass "K" =
        .ok { constant with pool := some [.placeholder, .double ⟨0⟩] } := by
  have hstorable : ∀ i ∈ saved shelf, i.Storable := by decide +kernel
  have hfree : Digest.CollisionFree (Store.encodings (saved shelf)) := by decide +kernel
  exact ⟨archive_after rfl rfl rfl shelf hstorable hfree, rfl, by decide +kernel,
    by decide +kernel⟩

end Session

end MiniJvm
