import Mathlib
import MiniJvm.Proofs.Store.History

/-!
# The newest content of a store

What is saved again keeps the place and the time of its first save. So while the clock does not go
back, the newest image and the newest class of a name are those that were saved for the first time
last (`newest_after`), and these are not the ones that were saved last once something comes back
(`outdated_after_return`).
-/

namespace MiniJvm

namespace Store

/-- The digest that came for the first time last. -/
def lastNew (digests : List Bytes) : Option Bytes := digests.eraseDups.getLast?

theorem eraseDups_concat (digests : List Bytes) (d : Bytes) :
    (digests ++ [d]).eraseDups =
      if d ∈ digests then digests.eraseDups else digests.eraseDups ++ [d] := by
  rw [List.eraseDups_append]
  by_cases hd : d ∈ digests
  · simp [List.removeAll, hd]
  · simp [List.removeAll, hd, List.eraseDups_cons]

theorem lastNew_isSome {digests : List Bytes} (h : digests ≠ []) :
    ∃ d ∈ digests, lastNew digests = some d := by
  obtain ⟨d, hd⟩ := List.exists_mem_of_ne_nil _ h
  have hne : digests.eraseDups ≠ [] := List.ne_nil_of_mem (List.mem_eraseDups.2 hd)
  exact ⟨_, List.mem_eraseDups.1 (List.getLast_mem hne), List.getLast?_eq_some_getLast hne⟩

/-- The last digest is it when it was not there before, or nothing new came since. -/
theorem lastNew_concat_iff {digests : List Bytes} {d : Bytes} :
    lastNew (digests ++ [d]) = some d ↔ (d ∈ digests → lastNew digests = some d) := by
  rw [lastNew, eraseDups_concat, lastNew]
  by_cases hd : d ∈ digests
  · rw [if_pos hd, forall_prop_of_true hd]
  · rw [if_neg hd, List.getLast?_concat, eq_self, true_iff]
    exact fun h => absurd h hd

/-- The newest of rows whose times ascend is the last one. -/
theorem newest_eq_getLast? {α : Type} {time : α → Int64} {rows : List α}
    (h : rows.Pairwise fun a b => time a ≤ time b) : newest time rows = rows.getLast? := by
  induction rows using List.reverseRecOn with
  | nil => rfl
  | append_singleton rows row ih =>
    obtain ⟨hrows, -, hlast⟩ := List.pairwise_append.1 h
    rw [List.getLast?_concat, newest, List.foldl_append, ← newest, ih hrows, List.foldl_cons,
      List.foldl_nil]
    cases hbest : rows.getLast? with
    | none => rfl
    | some best =>
      exact if_pos (hlast best (List.mem_of_getLast? hbest) row (List.mem_singleton_self row))

/-! ## Tables in order -/

namespace Keeping

variable {κ ρ : Type} {p : Keeping κ ρ} {time : ρ → Int64} {contents : List κ} {rows : List ρ}
  {times : List Int64}

/-- The rows stand in the order in which their contents came first, and this remains so for those
that a test picks. Their times are among the given ones, and ascend. -/
structure Ordered (p : Keeping κ ρ) (time : ρ → Int64) (contents : List κ) (rows : List ρ)
    (times : List Int64) : Prop where
  order : ∀ (f : κ → Bool) (g : ρ → Bool), (∀ k row, p.Made k row → g row = f k) →
    (rows.filter g).map p.rowDigest = ((contents.filter f).map p.digest).eraseDups
  ascending : rows.Pairwise fun a b => time a ≤ time b
  timed : ∀ row ∈ rows, time row ∈ times

theorem ordered_nil (p : Keeping κ ρ) (time : ρ → Int64) : p.Ordered time [] [] [] :=
  ⟨fun _ _ _ => rfl, .nil, nofun⟩

theorem Ordered.mono {more : List Int64} (h : p.Ordered time contents rows times)
    (hsub : times ⊆ more) : p.Ordered time contents rows more :=
  ⟨h.order, h.ascending, fun row hrow => hsub (h.timed row hrow)⟩

theorem Ordered.add (h : p.Ordered time contents rows times) (hrows : p.Holds contents rows)
    {k : κ} (hsep : p.Separates (contents ++ [k])) {row : ρ} (hmade : p.Made k row)
    (htime : time row ∈ times) (hlatest : ∀ t ∈ times, t ≤ time row) :
    p.Ordered time (contents ++ [k]) (p.add rows (p.digest k) row) times := by
  unfold Keeping.add
  split
  · rename_i hany
    refine ⟨fun f g hfg => ?_, h.ascending, h.timed⟩
    rw [h.order f g hfg, List.filter_append]
    cases hk : f k with
    | false => rw [List.filter_singleton, hk]; simp
    | true =>
      obtain ⟨there, hthere, hdigest⟩ := List.mem_map.1 (any_iff.1 hany)
      have hpicked : g there = true :=
        (hfg k there (hrows.made_of_digest hsep hthere hdigest)).trans hk
      have hin : p.digest k ∈ (contents.filter f).map p.digest := by
        rw [← List.mem_eraseDups, ← h.order f g hfg, ← hdigest]
        exact List.mem_map_of_mem (List.mem_filter.2 ⟨hthere, hpicked⟩)
      rw [List.filter_singleton, hk, cond_true, List.map_append, List.map_singleton,
        eraseDups_concat, if_pos hin]
  · rename_i hnone
    refine ⟨fun f g hfg => ?_, ?_, fun row' hrow' => ?_⟩
    · have hout : p.digest k ∉ (contents.filter f).map p.digest := by
        intro hin
        obtain ⟨k', hk', hdigest⟩ := List.mem_map.1 hin
        exact hnone (hdigest ▸ hrows.any_of_mem (List.mem_of_mem_filter hk'))
      rw [List.filter_append, List.filter_append, List.map_append, List.map_append,
        h.order f g hfg, List.filter_singleton, List.filter_singleton, hfg k row hmade]
      cases f k with
      | false => simp
      | true => simp [eraseDups_concat, hout, p.digest_of_made hmade]
    · refine List.pairwise_append.2 ⟨h.ascending, List.pairwise_singleton _ _, fun a ha b hb => ?_⟩
      rw [List.mem_singleton.1 hb]
      exact hlatest _ (h.timed a ha)
    · rcases List.mem_append.1 hrow' with hrow' | hrow'
      · exact h.timed row' hrow'
      · rw [List.mem_singleton.1 hrow']
        exact htime

/-- The last of the rows that a test picks is that of the content that came for the first time
last. -/
theorem Ordered.last_made (h : p.Ordered time contents rows times) (hrows : p.Holds contents rows)
    {f : κ → Bool} {g : ρ → Bool} (hfg : ∀ k row, p.Made k row → g row = f k)
    (hne : contents.filter f ≠ []) :
    ∃ k ∈ contents.filter f, lastNew ((contents.filter f).map p.digest) = some (p.digest k) ∧
      ∃ row, newest time (rows.filter g) = some row ∧ p.Made k row := by
  have hascending : (rows.filter g).Pairwise fun a b => time a ≤ time b :=
    h.ascending.sublist List.filter_sublist
  obtain ⟨d, -, hd⟩ := lastNew_isSome (List.map_eq_nil_iff.not.2 hne)
  have hlast : (rows.filter g).getLast?.map p.rowDigest = some d := by
    rw [← List.getLast?_map, h.order f g hfg, ← hd, lastNew]
  obtain ⟨row, hrow, hdigest⟩ := Option.map_eq_some_iff.1 hlast
  obtain ⟨hmem, hpicked⟩ := List.mem_filter.1 (List.mem_of_getLast? hrow)
  obtain ⟨k, hk, hmade⟩ := hrows.made row hmem
  refine ⟨k, List.mem_filter.2 ⟨hk, (hfg k row hmade).symm.trans hpicked⟩, ?_, row, ?_, hmade⟩
  · rw [hd, ← hdigest, p.digest_of_made hmade]
  · rw [newest_eq_getLast? hascending, hrow]

end Keeping

/-! ## Saving -/

variable {s : Store} {images : List Image} {times : List Int64}

theorem ordered_saveClasses {contents classes : List ClassDef} {now : Int64}
    (h : classKeeping.Ordered ClassRow.savedAt contents s.classes times)
    (hrows : classKeeping.Holds contents s.classes)
    (hsep : classKeeping.Separates (contents ++ classes)) (hnow : now ∈ times)
    (hlatest : ∀ t ∈ times, t ≤ now) :
    classKeeping.Ordered ClassRow.savedAt (contents ++ classes)
      (classes.foldl (fun s c => s.saveClass now c) s).classes times := by
  induction classes generalizing s contents with
  | nil => simpa using h
  | cons c rest ih =>
    rw [List.append_cons] at hsep ⊢
    rw [List.foldl_cons]
    have hone := hsep.mono (List.subset_append_left _ _)
    have hmade : classKeeping.Made c ⟨Image.classDigest c, c.name, Image.marshalClass c, now⟩ :=
      ⟨rfl, rfl, rfl⟩
    refine ih ?_ ?_ hsep
    · rw [classes_saveClass]
      exact h.add hrows hone hmade hnow hlatest
    · rw [classes_saveClass]
      exact hrows.add hone hmade

/-- Both tables stand in the order of the first saves. -/
structure Ranked (s : Store) (images : List Image) (times : List Int64) : Prop where
  imageRows : imageKeeping.Ordered ImageRow.savedAt images s.images times
  classRows : classKeeping.Ordered ClassRow.savedAt (images.flatMap Image.classList) s.classes times

theorem ranked_empty : Ranked {} [] [] := ⟨Keeping.ordered_nil _ _, Keeping.ordered_nil _ _⟩

theorem Ranked.saveImage (h : s.Ranked images times) (hrecords : s.Records images) {now : Int64}
    (hlatest : ∀ t ∈ times, t ≤ now) {i : Image}
    (hstorable : ∀ j ∈ images ++ [i], j.Storable)
    (hfree : Digest.CollisionFree (encodings (images ++ [i]))) :
    (s.saveImage now i).2.Ranked (images ++ [i]) (times ++ [now]) := by
  have hsub : times ⊆ times ++ [now] := List.subset_append_left _ _
  have hnow : now ∈ times ++ [now] := List.mem_append_right _ (List.mem_singleton_self now)
  have hlatest : ∀ t ∈ times ++ [now], t ≤ now := by
    intro t ht
    rcases List.mem_append.1 ht with ht | ht
    · exact hlatest t ht
    · exact List.mem_singleton.1 ht ▸ Int64.le_refl now
  constructor
  · rw [images_saveImage]
    exact (h.imageRows.mono hsub).add hrecords.imageRows (separates_images hfree) ⟨rfl, rfl⟩ hnow
      hlatest
  · have hsep := separates_classes hfree hstorable
    rw [List.flatMap_append, List.flatMap_singleton] at hsep ⊢
    rw [classes_saveImage]
    exact ordered_saveClasses (h.classRows.mono hsub) hrecords.classRows hsep hnow hlatest

/-! ## Finding the newest -/

/-- The classes of a name in images, in their order. -/
def definitions (name : Bytes) (images : List Image) : List ClassDef :=
  (images.flatMap Image.classList).filter (·.name == name)

theorem latestImage_of_ranked (h : s.Ranked images times) (hrecords : s.Records images)
    (hstorable : ∀ i ∈ images, i.Storable) (hne : images ≠ []) :
    ∃ i ∈ images, lastNew (images.map Image.digest) = some i.digest ∧
      s.latestImage = .ok (i.digest, i.normal) := by
  have hlast := h.imageRows.last_made hrecords.imageRows (f := fun _ => true) (g := fun _ => true)
    (fun _ _ _ => rfl)
  simp only [List.filter_true] at hlast
  obtain ⟨i, hi, hnew, row, hnewest, hdigest, hbody⟩ := hlast hne
  refine ⟨i, hi, hnew, ?_⟩
  rw [latestImage, hnewest]
  dsimp only
  rw [readImage, hbody, hdigest, Image.unmarshal_marshal (hstorable i hi)]
  rfl

theorem loadClass_of_ranked (h : s.Ranked images times) (hrecords : s.Records images)
    (hstorable : ∀ i ∈ images, i.Storable) {name : Bytes} (hne : definitions name images ≠ []) :
    ∃ c ∈ definitions name images,
      lastNew ((definitions name images).map Image.classDigest) = some (Image.classDigest c) ∧
      s.loadClass name = .ok c.normal := by
  have hname : ∀ c row, classKeeping.Made c row → (row.name == name) = (c.name == name) :=
    fun c row hmade => by rw [hmade.2.1]
  obtain ⟨c, hc, hnew, row, hnewest, -, -, hbody⟩ :=
    h.classRows.last_made hrecords.classRows hname hne
  obtain ⟨i, hi, hin⟩ := List.mem_flatMap.1 (List.mem_of_mem_filter hc)
  refine ⟨c, hc, hnew, ?_⟩
  rw [loadClass, hnewest]
  dsimp only
  rw [hbody, Image.unmarshalClass_marshalClass ((hstorable i hi).each c hin)]

end Store

namespace Session

open Store (lastNew definitions)

/-! ## Histories -/

def Call.time? : Call → Option Int64
  | .save now _ => some now
  | .record _ _ => none

def clocks (calls : List Call) : List Int64 := calls.filterMap Call.time?

theorem clocks_concat (calls : List Call) (call : Call) :
    clocks (calls ++ [call]) = clocks calls ++ call.time?.toList := by
  rw [clocks, List.filterMap_append, clocks]
  cases call <;> rfl

variable {s : Session} {images : List Image} {times : List Int64}

theorem Recording.ranked_perform (h : s.Recording images) (hranked : s.store.Ranked images times)
    (call : Call) (hclock : ∀ t ∈ times, ∀ now ∈ call.time?, t ≤ now)
    (hstorable : ∀ i ∈ images ++ call.image?.toList, i.Storable)
    (hfree : Digest.CollisionFree (Store.encodings (images ++ call.image?.toList))) :
    (s.perform call).store.Ranked (images ++ call.image?.toList)
      (times ++ call.time?.toList) := by
  cases call with
  | save now i =>
    rw [Session.perform, h.working.saveImage]
    exact hranked.saveImage h.records (fun t ht => hclock t ht now rfl) hstorable hfree
  | record fresh r =>
    obtain ⟨runs, hrecord⟩ := perform_record s fresh r
    rw [Call.image?, Call.time?, Option.toList_none, Option.toList_none, List.append_nil,
      List.append_nil, hrecord]
    exact ⟨hranked.imageRows, hranked.classRows⟩

theorem Recording.ranked_performAll (hs : s.Recording []) (hempty : s.store.Ranked [] [])
    (calls : List Call) (hstorable : ∀ i ∈ saved calls, i.Storable)
    (hfree : Digest.CollisionFree (Store.encodings (saved calls)))
    (hclock : (clocks calls).Pairwise (· ≤ ·)) :
    (s.performAll calls).store.Ranked (saved calls) (clocks calls) := by
  induction calls using List.reverseRecOn with
  | nil => exact hempty
  | append_singleton calls call ih =>
    rw [saved_concat] at hstorable hfree ⊢
    rw [clocks_concat] at hclock ⊢
    obtain ⟨hbefore, -, hlatest⟩ := List.pairwise_append.1 hclock
    have hstorable' := fun i hi => hstorable i (List.mem_append_left _ hi)
    have hfree' := hfree.mono (Store.encodings_append_subset _ _)
    rw [Session.performAll, List.foldl_append]
    exact (hs.performAll calls hstorable' hfree').ranked_perform (ih hstorable' hfree' hbefore)
      call (fun t ht now hnow => hlatest t ht now (Option.mem_toList.2 hnow)) hstorable hfree

theorem Working.latestImage (h : s.Working) : s.latestImage = s.store.latestImage := by
  unfold Session.latestImage
  rw [h.check]
  rfl

/-! ### What a session has -/

/-- What is newest in a session in which these images were saved. -/
structure Newest (s : Session) (images : List Image) : Prop where
  /-- Once an image was saved there is a latest one. -/
  someImage : images ≠ [] → ∃ i ∈ images, s.latestImage = .ok (i.digest, i.normal)
  /-- It is the one that was saved for the first time last. -/
  image : ∀ i ∈ images, s.latestImage = .ok (i.digest, i.normal) ↔
    lastNew (images.map Image.digest) = some i.digest
  /-- So the image that was saved last is it just when nothing new came since its first save. -/
  lastImage : ∀ before i, images = before ++ [i] →
    (s.latestImage = .ok (i.digest, i.normal) ↔
      (i.digest ∈ before.map Image.digest →
        lastNew (before.map Image.digest) = some i.digest))
  /-- A name that some class has stands for one of its classes. -/
  someClass : ∀ name, definitions name images ≠ [] →
    ∃ c ∈ definitions name images, s.loadClass name = .ok c.normal
  /-- It is the one that was saved for the first time last. -/
  classOf : ∀ name, ∀ c ∈ definitions name images, s.loadClass name = .ok c.normal ↔
    lastNew ((definitions name images).map Image.classDigest) = some (Image.classDigest c)
  /-- So the class that was saved last is it just when nothing new came since its first save. -/
  lastClass : ∀ name before c, definitions name images = before ++ [c] →
    (s.loadClass name = .ok c.normal ↔
      (Image.classDigest c ∈ before.map Image.classDigest →
        lastNew (before.map Image.classDigest) = some (Image.classDigest c)))

theorem Recording.latestImage_iff (h : s.Recording images) (hranked : s.store.Ranked images times)
    (hstorable : ∀ i ∈ images, i.Storable)
    (hfree : Digest.CollisionFree (Store.encodings images)) {i : Image} (hi : i ∈ images) :
    s.latestImage = .ok (i.digest, i.normal) ↔
      lastNew (images.map Image.digest) = some i.digest := by
  obtain ⟨j, hj, hnew, hlatest⟩ :=
    Store.latestImage_of_ranked hranked h.records hstorable (List.ne_nil_of_mem hi)
  rw [h.working.latestImage, hlatest, hnew]
  constructor
  · intro heq
    injection heq with heq
    rw [(Prod.mk.inj heq).1]
  · intro heq
    have hdigest : j.digest = i.digest := Option.some.inj heq
    have hbytes := Store.marshal_eq_of_digest hfree hj hi hdigest
    rw [hdigest, (Image.marshal_eq_iff (hstorable j hj) (hstorable i hi)).1 hbytes]

theorem Recording.loadClass_iff (h : s.Recording images) (hranked : s.store.Ranked images times)
    (hstorable : ∀ i ∈ images, i.Storable)
    (hfree : Digest.CollisionFree (Store.encodings images)) {name : Bytes} {c : ClassDef}
    (hc : c ∈ definitions name images) :
    s.loadClass name = .ok c.normal ↔
      lastNew ((definitions name images).map Image.classDigest) = some (Image.classDigest c) := by
  obtain ⟨d, hd, hnew, hload⟩ :=
    Store.loadClass_of_ranked hranked h.records hstorable (List.ne_nil_of_mem hc)
  rw [h.working.loadClass, hload, hnew]
  constructor
  · intro heq
    injection heq with heq
    rw [Image.classDigest, Image.classDigest, ← Image.marshalClass_normal d, heq,
      Image.marshalClass_normal]
  · intro heq
    rw [Store.normal_eq_of_classDigest hfree hstorable (List.mem_of_mem_filter hd)
      (List.mem_of_mem_filter hc) (Option.some.inj heq)]

theorem Recording.newest (h : s.Recording images) (hranked : s.store.Ranked images times)
    (hstorable : ∀ i ∈ images, i.Storable)
    (hfree : Digest.CollisionFree (Store.encodings images)) : s.Newest images where
  someImage hne := by
    obtain ⟨i, hi, -, hlatest⟩ := Store.latestImage_of_ranked hranked h.records hstorable hne
    exact ⟨i, hi, h.working.latestImage.trans hlatest⟩
  image i hi := h.latestImage_iff hranked hstorable hfree hi
  lastImage before i heq := by
    have hi : i ∈ images := heq ▸ List.mem_append_right _ (List.mem_singleton_self i)
    rw [h.latestImage_iff hranked hstorable hfree hi, heq, List.map_append, List.map_singleton,
      Store.lastNew_concat_iff]
  someClass name hne := by
    obtain ⟨c, hc, -, hload⟩ := Store.loadClass_of_ranked hranked h.records hstorable hne
    exact ⟨c, hc, (h.working.loadClass name).trans hload⟩
  classOf name c hc := h.loadClass_iff hranked hstorable hfree hc
  lastClass name before c heq := by
    have hc : c ∈ definitions name images :=
      heq ▸ List.mem_append_right _ (List.mem_singleton_self c)
    rw [h.loadClass_iff hranked hstorable hfree hc, heq, List.map_append, List.map_singleton,
      Store.lastNew_concat_iff]

/-- While the clock does not go back, what is newest in a store that was empty is what was saved
for the first time last, whatever was saved and recorded in it, provided that all of it can be
stored and that no two encodings have one digest. -/
theorem newest_after (hopen : s.isOpen = true) (hwritable : s.readOnly = false)
    (hempty : s.store = {}) (calls : List Call) (hclock : (clocks calls).Pairwise (· ≤ ·))
    (hstorable : ∀ i ∈ saved calls, i.Storable)
    (hfree : Digest.CollisionFree (Store.encodings (saved calls))) :
    (s.performAll calls).Newest (saved calls) := by
  have hstart : s.Recording [] := ⟨hopen, hwritable, hempty ▸ Store.records_empty⟩
  have hranked := hstart.ranked_performAll (hempty ▸ Store.ranked_empty) calls hstorable hfree
    hclock
  exact (hstart.performAll calls hstorable hfree).newest hranked hstorable hfree

def renewed : ClassDef := { plain with superName := "B" }

def single : Image := .ofClasses [] (some [plain])

def double : Image := .ofClasses [] (some [plain, { name := "B" }])

/-- The old class `A` comes back in the third image, and the first image at last. -/
def returning : List Call :=
  [.save 1 single, .save 2 (.ofClasses [] (some [renewed])), .record "1" {}, .save 2 double,
    .save 5 single]

theorem newest_after_returning :
    (clocks returning).Pairwise (· ≤ ·) ∧
      ((inMemory "runs.db").performAll returning).Newest (saved returning) := by
  have hclock : (clocks returning).Pairwise (· ≤ ·) := by decide
  have hstorable : ∀ i ∈ saved returning, i.Storable := by decide +kernel
  have hfree : Digest.CollisionFree (Store.encodings (saved returning)) := by decide +kernel
  exact ⟨hclock, newest_after rfl rfl rfl returning hclock hstorable hfree⟩

/-- The image that was saved last is not the latest one, and the class `A` that the last two images
have is not the one that the name stands for. -/
theorem outdated_after_return :
    (clocks returning).Pairwise (· ≤ ·) ∧
      (saved returning).getLast? = some single ∧
      ((inMemory "runs.db").performAll returning).latestImage = .ok (double.digest, double) ∧
      single.digest ≠ double.digest ∧
      (definitions "A" (saved returning)).getLast? = some plain ∧
      ((inMemory "runs.db").performAll returning).loadClass "A" = .ok renewed ∧
      plain ≠ renewed := by
  decide +kernel

end Session

end MiniJvm
