import Mathlib
import MiniJvm.Proofs.Image.RoundTrip
import MiniJvm.Proofs.Basic
import MiniJvm.Store.Session

/-!
# What a store keeps

An image is found under the digest of its bytes from its first save on, whatever is saved or
recorded later: rows are added at the end and never changed, and nothing is added under a digest
that is there.
-/

namespace MiniJvm

/-! ## Digests as names -/

namespace Digest

theorem hex_ne_nil (message : Bytes) : hex message ≠ [] := by
  unfold hex sha256 Bytes.hex wordBytes
  simp

theorem hexDigit_ascii : ∀ n < 16, Bytes.hexDigit n < 0x80 := by decide

theorem valid_hex (message : Bytes) : Utf8.valid (hex message) = true := by
  refine Utf8.valid_of_ascii fun d hd => ?_
  obtain ⟨b, -, hd⟩ := List.mem_flatMap.1 hd
  have hb := b.toNat_lt
  simp only [List.mem_cons, List.not_mem_nil, or_false] at hd
  rcases hd with rfl | rfl <;> exact hexDigit_ascii _ (by omega)

end Digest

namespace Store

/-- Every image stands under the digest of its bytes. -/
def Addressed (s : Store) : Prop := ∀ row ∈ s.images, row.digest = Digest.hex row.body

/-- No image has the digest of these bytes but these bytes. -/
def Distinguishes (s : Store) (body : Bytes) : Prop :=
  ∀ row ∈ s.images, Digest.hex row.body = Digest.hex body → row.body = body

/-- The image under a digest is kept in these bytes. -/
def Keeps (s : Store) (digest body : Bytes) : Prop :=
  ∃ row, s.images.find? (·.digest == digest) = some row ∧ row.body = body

theorem addressed_empty : Addressed {} := nofun

/-! ## Saving -/

theorem images_saveClasses (s : Store) (now : Int64) (classes : List ClassDef) :
    (classes.foldl (fun s c => s.saveClass now c) s).images = s.images := by
  have hone (s : Store) (c : ClassDef) : (s.saveClass now c).images = s.images := by
    unfold saveClass
    dsimp only
    split <;> rfl
  induction classes generalizing s with
  | nil => rfl
  | cons c rest ih => rw [List.foldl_cons, ih, hone]

/-- Saving adds a row for the image, unless one is there. -/
theorem images_saveImage (s : Store) (now : Int64) (i : Image) :
    (s.saveImage now i).2.images =
      if s.images.any (·.digest == i.digest) then s.images
      else s.images ++ [⟨i.digest, i.marshal, now⟩] := by
  unfold saveImage saveBody
  dsimp only
  rw [images_saveClasses]
  split
  · exact images_saveClasses ..
  · rfl

theorem Addressed.saveImage {s : Store} (h : s.Addressed) (now : Int64) (i : Image) :
    (s.saveImage now i).2.Addressed := by
  intro row hrow
  rw [images_saveImage] at hrow
  split at hrow
  · exact h row hrow
  · rcases List.mem_append.1 hrow with hrow | hrow
    · exact h row hrow
    · rw [List.mem_singleton.1 hrow]
      rfl

theorem Keeps.saveImage {s : Store} {digest body : Bytes} (h : s.Keeps digest body) (now : Int64)
    (i : Image) : (s.saveImage now i).2.Keeps digest body := by
  obtain ⟨row, hrow, hbody⟩ := h
  refine ⟨row, ?_, hbody⟩
  rw [images_saveImage]
  split
  · exact hrow
  · rw [List.find?_append, hrow, Option.some_or]

/-- What was just saved is there. -/
theorem keeps_saveImage {s : Store} (h : s.Addressed) (now : Int64) {i : Image}
    (hone : s.Distinguishes i.marshal) : (s.saveImage now i).2.Keeps i.digest i.marshal := by
  unfold Keeps
  rw [images_saveImage]
  cases hfind : s.images.find? (·.digest == i.digest) with
  | some row =>
    have hmem := List.mem_of_find?_eq_some hfind
    have hdigest : row.digest = i.digest := by simpa using List.find?_some hfind
    have hany : s.images.any (·.digest == i.digest) = true :=
      List.any_eq_true.2 ⟨row, hmem, beq_iff_eq.2 hdigest⟩
    rw [if_pos hany]
    exact ⟨row, hfind, hone row hmem ((h row hmem).symm.trans hdigest)⟩
  | none =>
    have hany : ¬s.images.any (·.digest == i.digest) = true := by
      rw [List.any_eq_true]
      rintro ⟨row, hmem, hrow⟩
      exact List.find?_eq_none.1 hfind row hmem hrow
    rw [if_neg hany, List.find?_append, hfind, Option.none_or]
    exact ⟨⟨i.digest, i.marshal, now⟩, List.find?_cons_of_pos (beq_self_eq_true _), rfl⟩

theorem loadImage_of_keeps {s : Store} {digest : Bytes} {i : Image} (h : s.Keeps digest i.marshal)
    (hi : i.Storable) : s.loadImage digest = .ok i.normal := by
  obtain ⟨row, hrow, hbody⟩ := h
  unfold loadImage
  rw [hrow]
  dsimp only
  rw [readImage, hbody, Image.unmarshal_marshal hi]
  rfl

/-! ## Recording -/

/-- No run has the name. -/
def Unused (s : Store) (id : Bytes) : Prop := ∀ row ∈ s.runs, row.id ≠ id

theorem images_recordRun {s s' : Store} {fresh : Bytes} {r r' : RunRecord}
    (h : s.recordRun fresh r = .ok (r', s')) : s'.images = s.images := by
  unfold recordRun at h
  dsimp only at h
  split at h
  · cases h
  · cases h
    rfl

/-- A run without a name is recorded under a fresh one. -/
theorem recordRun_unused {s : Store} {fresh : Bytes} {r : RunRecord} (hr : r.id = [])
    (h : s.Unused fresh) : ∃ s', s.recordRun fresh r = .ok ({ r with id := fresh }, s') := by
  have hnamed : r.named fresh = { r with id := fresh } := by
    rw [RunRecord.named, hr]
    rfl
  have hnone : ¬s.runs.any (·.id == fresh) = true := by
    rw [List.any_eq_true]
    rintro ⟨row, hmem, hrow⟩
    exact h row hmem (beq_iff_eq.1 hrow)
  unfold recordRun
  rw [hnamed]
  exact ⟨_, if_neg hnone⟩

end Store

/-! ## Sessions -/

namespace Session

/-- A session that can save, in which images can be found. -/
structure Working (s : Session) : Prop where
  isOpen : s.isOpen = true
  writable : s.readOnly = false
  addressed : s.store.Addressed

theorem working_inMemory (path : Bytes) : (inMemory path).Working :=
  ⟨rfl, rfl, Store.addressed_empty⟩

variable {s : Session}

theorem Working.check (h : s.Working) (action : StoreAction) : s.check action = .ok s.store :=
  if_pos h.isOpen

theorem Working.checkWrite (h : s.Working) (action : StoreAction) : s.checkWrite action = .ok () :=
  if_neg (by rw [h.writable]; exact Bool.false_ne_true)

theorem Working.saveImage (h : s.Working) (now : Int64) (i : Image) :
    s.saveImage now i = .ok (i.digest, { s with store := (s.store.saveImage now i).2 }) := by
  unfold Session.saveImage
  rw [h.check, h.checkWrite]
  rfl

theorem Working.loadImage (h : s.Working) (digest : Bytes) :
    s.loadImage digest = s.store.loadImage digest := by
  unfold Session.loadImage
  rw [h.check]
  rfl

/-- Saving and recording change nothing but the store. -/
theorem saved_eq {now : Int64} {i : Image} {saved : Bytes × Session}
    (h : s.saveImage now i = .ok saved) :
    saved = (i.digest, { s with store := (s.store.saveImage now i).2 }) := by
  unfold Session.saveImage Session.check at h
  split at h
  · generalize i.classList.head?.elim _ _ = action at h
    cases hwrite : s.checkWrite action with
    | error e => rw [hwrite] at h; cases h
    | ok u =>
      rw [hwrite] at h
      cases h
      rfl
  · cases h

theorem recorded_eq {fresh : Bytes} {r r' : RunRecord} {s' : Session}
    (h : s.recordRun fresh r = .ok (r', s')) :
    ∃ store, s' = { s with store } ∧ s.store.recordRun fresh r = .ok (r', store) := by
  unfold Session.recordRun Session.check at h
  split at h
  · cases hwrite : s.checkWrite .recordingRun with
    | error e => rw [hwrite] at h; cases h
    | ok u =>
      rw [hwrite] at h
      change (s.store.recordRun fresh r >>= _) = _ at h
      cases hrecord : s.store.recordRun fresh r with
      | error e => rw [hrecord] at h; cases h
      | ok recorded =>
        rw [hrecord] at h
        cases h
        exact ⟨recorded.2, rfl, rfl⟩
  · cases h

end Session

end MiniJvm
