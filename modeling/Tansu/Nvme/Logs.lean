import Tansu.Nvme.Sections

/-!
# What the sections do to the logs

Over every section of the engine: which of them move the next offset of a
partition, replace its writer or add to its index, and which change a segment
file.  Only an append does the former; only an append, a retention and the
deletion of a topic do the latter.
-/

namespace Tansu.Nvme

open Std Tansu.Lib Machine List Option BTreeMap Produce Cleanup

variable {cfg : Config} {c : Choice} {s s' : Engine} {a : Action} {next : List Action} {e : Error}
  {tp : Topition} {inner inner' : PartitionInner} {r : Request} {base' : Int} {file : SegmentFile}

/-! ## Batches on their way -/

namespace Action

/-- The call that a section of a produce belongs to. -/
def call? : Action → Option ProduceCall
  | .produce (.guard call) | .produce (.check call _) | .produce (.append call _)
  | .produce (.acked call _ _) | .produce (.record _ call _ _) => some call
  | _ => none

/-- The attributes that the guard has read from the batch. -/
def attributes? : Action → Option BatchAttribute
  | .produce (.check _ attributes) | .produce (.append _ attributes)
  | .produce (.acked _ attributes _) | .produce (.record _ _ attributes _) => some attributes
  | _ => none

theorem append_or (a : Action) : (∃ call attributes, a = .produce (.append call attributes)) ∨
    ∀ call attributes, a ≠ .produce (.append call attributes) :=
  or_iff_not_imp_left.2 fun h call attributes heq => h ⟨call, attributes, heq⟩

/-- The batch covers at least one offset, and the attributes are its own. -/
structure Sound (a : Action) : Prop where
  sized : ∀ call, a.call? = some call → 0 ≤ call.batch.lastOffsetDelta
  parsed : ∀ call attributes, a.call? = some call → a.attributes? = some attributes →
    BatchAttribute.tryFrom call.batch.attributes = .ok attributes

theorem Sound.of_call (h : a.call? = none) : a.Sound :=
  ⟨fun call hc => by simp [h] at hc, fun call _ hc => by simp [h] at hc⟩

end Action

/-- The batches of a request cover at least one offset each. -/
def Request.sized : Request → Bool
  | .produce call => decide (0 ≤ call.batch.lastOffsetDelta)
  | _ => true

theorem Request.start_call (h : ∀ call, r ≠ .produce call) : ∀ a ∈ r.start, a.call? = none := by
  intro a ha
  cases r with
  | produce call => exact absurd rfl (h call)
  | txnEnd | maintain =>
    simp only [start, mem_cons, not_mem_nil, or_false] at ha
    rcases ha with rfl | rfl <;> rfl
  | _ =>
    rw [mem_singleton.1 ha]
    rfl

theorem Request.start_sound (h : r.sized) : ∀ a ∈ r.start, a.Sound := by
  intro a ha
  cases r with
  | produce call =>
    rw [mem_singleton.1 ha]
    refine ⟨fun call' hc => ?_, fun _ _ _ hattr => ?_⟩
    · cases hc
      exact of_decide_eq_true h
    · cases hattr
  | _ => exact .of_call (Request.start_call (by simp) a ha)

/-- Sections that are not part of a produce lead to a produce only by its marker. -/
theorem run_call (ha : ∀ step, a ≠ .produce step) (h : a.run cfg s c = .ok s' next) :
    ∀ b ∈ next, b.call? = none := by
  intro b hb
  cases run_leads h b hb with
  | marker | guard | check | append | acked => exact absurd rfl (ha _)
  | _ => rfl

/-- What a sound section goes on with is sound; the end marker is a batch of one. -/
theorem run_sound (ha : a.Sound) (h : a.run cfg s c = .ok s' next) : ∀ b ∈ next, b.Sound := by
  intro b hb
  cases run_leads h b hb with
  | marker =>
    refine ⟨fun call hc => ?_, fun _ _ _ hattr => ?_⟩
    · cases hc
      exact Int.le_refl 0
    · cases hattr
  | guard hattr =>
    refine ⟨fun call' hc => ha.sized call' hc, fun call' attributes' hc ha' => ?_⟩
    cases hc
    cases ha'
    exact hattr
  | check | append | acked => exact ⟨ha.sized, ha.parsed⟩
  | _ => exact .of_call rfl

/-! ## Partitions -/

/-- What every section but an append keeps of a partition: its next offset, its
writer unless it is sealed, and its index but for what is truncated. -/
structure PartitionInner.Kept (inner inner' : PartitionInner) : Prop where
  nextOffset : inner'.nextOffset = inner.nextOffset
  writer : inner'.writer = inner.writer ∨ inner'.writer = none
  batches : ∀ (o : Int) (entry : BatchEntry), inner'.batches[o]? = some entry →
    inner.batches[o]? = some entry

namespace PartitionInner.Kept

theorem rfl : inner.Kept inner := ⟨Eq.refl _, .inl (Eq.refl _), fun _ _ h => h⟩

theorem advanceLogStart (offset : Int) : inner.Kept (inner.advanceLogStart offset) :=
  ⟨Eq.refl _, .inl (Eq.refl _), fun _ _ h => (getElem?_filter_eq_some.1 h).1⟩

theorem raise (handle : Nat) (offsetEnd : Int) :
    inner.Kept (Produce.raise handle offsetEnd inner) := by
  unfold Produce.raise
  split
  · exact ⟨Eq.refl _, .inl (Eq.refl _), fun _ _ h => h⟩
  · exact rfl

theorem sealAged : inner.Kept (Cleanup.sealAged c inner) := by
  unfold Cleanup.sealAged
  split
  · exact ⟨Eq.refl _, .inr (Eq.refl _), fun _ _ h => h⟩
  · exact rfl

end PartitionInner.Kept

/-- Every partition after the section was there and is kept, or is new. -/
def Engine.KeepsLogs (s s' : Engine) (tp : Topition) : Prop :=
  ∀ inner', s'.partitions[tp]? = some inner' →
    (∃ inner, s.partitions[tp]? = some inner ∧ inner.Kept inner') ∨
    (s.partitions[tp]? = none ∧ inner' = { handle := s.nextHandle })

namespace Engine.KeepsLogs

theorem of_eq (h : s'.partitions = s.partitions) : s.KeepsLogs s' tp := fun inner' hp =>
  .inl ⟨inner', by rw [← h, hp], .rfl⟩

variable {tp' : Topition}

theorem modify {f : PartitionInner → PartitionInner}
    (hs : s'.partitions = s.partitions.modify tp' f)
    (hf : ∀ inner : PartitionInner, inner.Kept (f inner)) : s.KeepsLogs s' tp := by
  intro inner' hp
  rw [hs, BTreeMap.getElem?_modify_eq] at hp
  split at hp
  · obtain ⟨inner, hinner, rfl⟩ := map_eq_some_iff.1 hp
    exact .inl ⟨inner, hinner, hf inner⟩
  · exact .inl ⟨inner', hp, .rfl⟩

theorem setPartition (hinner : s.partitions[tp']? = some inner) (hkept : inner.Kept inner') :
    s.KeepsLogs (s.setPartition tp' inner') tp := by
  intro inner'' hp
  rw [Engine.setPartition, getElem?_insert_eq] at hp
  split at hp
  · next htp =>
    subst htp
    cases hp
    exact .inl ⟨inner, hinner, hkept⟩
  · exact .inl ⟨inner'', hp, .rfl⟩

theorem partition (h : s.partition tp' = some (s', inner)) : s.KeepsLogs s' tp := by
  rcases Engine.partition_eq h with ⟨-, rfl⟩ | ⟨hnone, rfl, rfl⟩
  · exact of_eq rfl
  · intro inner' hp
    rw [getElem?_insert_eq] at hp
    split at hp
    · next htp =>
      subst htp
      cases hp
      exact .inr ⟨hnone, rfl⟩
    · exact .inl ⟨inner', hp, .rfl⟩

end Engine.KeepsLogs

/-- **Only an append moves a log.** -/
theorem run_keepsLogs (h : a.run cfg s c = .ok s' next)
    (ha : ∀ call attributes, a = .produce (.append call attributes) → call.topition ≠ tp) :
    s.KeepsLogs s' tp := by
  cases run_touches h with
  | append happ =>
    obtain ⟨_, _, _, _, _, -, hparts, -⟩ := append_ok_partitions happ
    intro inner' hp
    rw [hparts tp, if_neg (ha _ _ rfl)] at hp
    exact .inl ⟨inner', hp, .rfl⟩
  | acked => exact .modify rfl fun inner => .raise _ _
  | release => exact .modify rfl fun inner => ⟨rfl, .inl rfl, fun _ _ h => h⟩
  | ensure hp => exact .partition hp
  | drop => exact fun inner' hp => .inl ⟨inner', (getElem?_filter_eq_some.1 hp).1, .rfl⟩
  | deleteRecord hp | retain hp => exact .setPartition hp (.advanceLogStart _)
  | sealAged => exact .modify rfl fun inner => .sealAged
  | _ => exact .of_eq rfl

theorem run_err_keepsLogs (h : a.run cfg s c = .err s' e)
    (ha : ∀ call attributes, a = .produce (.append call attributes) → call.topition ≠ tp) :
    s.KeepsLogs s' tp := by
  cases run_fails h with
  | still | wal | check => exact .of_eq rfl
  | append =>
    rcases append_err_partitions h with rfl | ⟨_, _, _, _, rfl, hparts⟩
    · exact .of_eq rfl
    · intro inner' hp
      rw [hparts tp, if_neg (ha _ _ rfl)] at hp
      exact .inl ⟨inner', hp, .rfl⟩
  | retain hp => exact .setPartition hp (.advanceLogStart _)

/-! ## Segment files -/

variable {tp' : Topition} {base : Int}

/-- A segment file by its partition and its base offset. -/
def Engine.file? (s : Engine) (tp : Topition) (base : Int) : Option SegmentFile :=
  s.dirs[tp]?.bind (·[base]?)

theorem Engine.file?_of_dirs (h : s'.dirs = s.dirs) (base : Int) :
    s'.file? tp base = s.file? tp base := by
  simp only [Engine.file?, h]

/-- A directory that is created on demand has no files. -/
theorem Engine.file?_partition (h : s.partition tp' = some (s', inner)) (base : Int) :
    s'.file? tp base = s.file? tp base := by
  rcases Engine.partition_eq h with ⟨-, rfl⟩ | ⟨-, -, rfl⟩
  · rfl
  · simp only [Engine.file?, getElem?_insertIfNew_eq]
    split
    · cases s.dirs[tp]? <;> simp
    · rfl

theorem Engine.file?_modify {f : SegmentFile → SegmentFile} :
    ((s.dirs.modify tp' fun dir => dir.modify base' f)[tp]?.bind (·[base]?)) =
      if tp' = tp ∧ base' = base then (s.file? tp base).map f else s.file? tp base := by
  simp only [Engine.file?, BTreeMap.getElem?_modify_eq]
  by_cases htp : tp' = tp
  · subst htp
    cases s.dirs[tp']? with
    | none => simp
    | some dir =>
      simp only [if_true, true_and, map_some, bind_some,
        BTreeMap.getElem?_modify_eq]
  · simp [htp]

/-- Every partition has its directory. -/
def Engine.HasDirs (s : Engine) : Prop :=
  ∀ tp : Topition, s.partitions[tp]?.isSome → s.dirs[tp]?.isSome

namespace Engine.HasDirs

variable {s₁ : Engine} {offset : Int} {call : ProduceCall} {attributes : BatchAttribute}

theorem partition (hd : s.HasDirs) (h : s.partition tp = some (s₁, inner)) :
    s₁.HasDirs ∧ s₁.dirs[tp]?.isSome := by
  rcases Engine.partition_eq h with ⟨hp, rfl⟩ | ⟨-, -, rfl⟩
  · exact ⟨hd, hd tp (isSome_of_eq_some hp)⟩
  · refine ⟨fun tp' hp' => ?_, ?_⟩
    · simp only [getElem?_insertIfNew_eq]
      split
      · rfl
      · next hne =>
        rw [getElem?_insert_eq, if_neg hne] at hp'
        exact hd tp' hp'
    · simp

theorem activeSegment (hd : s.HasDirs) {writer : Option SegmentWriter} {w : SegmentWriter}
    (h : s.activeSegment cfg c tp writer offset = some (s₁, w)) :
    s₁.HasDirs ∧ ∀ tp' : Topition, s.dirs[tp']?.isSome → s₁.dirs[tp']?.isSome := by
  rcases Engine.activeSegment_eq h with ⟨-, rfl⟩ | ⟨-, -, dir, -, -, rfl⟩
  · exact ⟨hd, fun _ => id⟩
  · have hmono (tp' : Topition) (hsome : s.dirs[tp']?.isSome) :
        ((s.dirs.insert tp (dir.insert offset {}))[tp']?).isSome := by
      rw [getElem?_insert_eq]
      split
      · rfl
      · exact hsome
    exact ⟨fun tp' hp => hmono tp' (hd tp' hp), hmono⟩

theorem setPartition (hd : s.HasDirs) (h : s.dirs[tp]?.isSome) :
    (s.setPartition tp inner).HasDirs := by
  intro tp' hp
  rw [Engine.setPartition, getElem?_insert_eq] at hp
  split at hp
  · next heq => exact heq ▸ h
  · exact hd tp' hp

theorem modify {f : SegmentDir → SegmentDir} (tp' : Topition) :
    (s.dirs.modify tp f)[tp']?.isSome = s.dirs[tp']?.isSome := by
  rw [BTreeMap.getElem?_modify_eq]
  split
  · exact isSome_map
  · rfl

theorem append (hd : s.HasDirs) (h : Produce.append cfg s c call attributes = .ok s' next) :
    s'.HasDirs := by
  obtain ⟨s₁, s₂, inner, w, hp, ha, rfl, -⟩ := append_ok h
  obtain ⟨hd₁, hdir₁⟩ := hd.partition hp
  obtain ⟨hd₂, hmono⟩ := hd₁.activeSegment ha
  refine setPartition (fun tp hsome => ?_) ?_
  · rw [Engine.appendFrame, modify]
    exact hd₂ tp hsome
  · rw [Engine.appendFrame, modify]
    exact hmono _ hdir₁

theorem append_err (hd : s.HasDirs) (h : Produce.append cfg s c call attributes = .err s' e) :
    s'.HasDirs := by
  rcases Produce.append_err h with rfl | ⟨s₁, inner, hp, ⟨-, rfl⟩ | ⟨s₂, w, ha, rfl⟩⟩
  · exact hd
  · obtain ⟨hd₁, hdir₁⟩ := hd.partition hp
    exact hd₁.setPartition hdir₁
  · obtain ⟨hd₁, hdir₁⟩ := hd.partition hp
    obtain ⟨hd₂, hmono⟩ := hd₁.activeSegment ha
    refine setPartition (fun tp hsome => ?_) ?_
    · rw [Engine.tearSegment, modify]
      exact hd₂ tp hsome
    · rw [Engine.tearSegment, modify]
      exact hmono _ hdir₁

end Engine.HasDirs

namespace Produce

variable {call : ProduceCall} {attributes : BatchAttribute}

/-- The writer that an append uses, with the file it writes to: the one of the
partition, or one it creates where there is none. -/
inductive Segment (s : Engine) (call : ProduceCall) : SegmentWriter → Option SegmentFile → Prop
  | found {w : SegmentWriter} (h : (target s call).writer = some w) :
      Segment s call w (s.file? call.topition w.baseOffset)
  | created (h : s.file? call.topition (target s call).nextOffset = none) :
      Segment s call ⟨(target s call).nextOffset, 0⟩ (some {})

theorem activeSegment_file? {s₁ s₂ : Engine} {w : SegmentWriter}
    (hp : s.partition call.topition = some (s₁, inner))
    (ha : s₁.activeSegment cfg c call.topition inner.writer inner.nextOffset = some (s₂, w)) :
    ∃ file, Segment s call w file ∧
      ∀ tp base, s₂.file? tp base = if call.topition = tp ∧ w.baseOffset = base then file
        else s.file? tp base := by
  obtain ⟨rfl, -⟩ := partition_target hp
  have hfile (tp : Topition) (base : Int) : s₁.file? tp base = s.file? tp base :=
    Engine.file?_partition hp base
  rcases Engine.activeSegment_eq ha with ⟨hw, rfl⟩ | ⟨rfl, -, dir, hdir, hbase, rfl⟩
  · refine ⟨_, .found hw, fun tp base => ?_⟩
    rw [hfile]
    split
    · next h => rw [h.1, h.2]
    · rfl
  · have hnone : s₁.file? call.topition (target s call).nextOffset = none := by
      rw [Engine.file?, hdir, bind_some]
      exact ExtTreeMap.getElem?_eq_none hbase
    refine ⟨_, .created (by rw [← hfile, hnone]), fun tp base => ?_⟩
    rw [← hfile tp base]
    simp only [Engine.file?, getElem?_insert_eq]
    by_cases htp : call.topition = tp
    · subst htp
      simp only [if_true, bind_some, true_and, hdir, getElem?_insert_eq]
    · simp [htp]

/-- **What an append does**: its frame goes behind the frames of its segment, and
its entry into the index of its partition. -/
theorem append_files (h : append cfg s c call attributes = .ok s' next) :
    ∃ w file, Segment s call w file ∧
      (∀ tp base, s'.file? tp base = if call.topition = tp ∧ w.baseOffset = base then
          file.map (·.append (target s call).nextOffset call.batch)
        else s.file? tp base) ∧
      (∀ tp, s'.partitions[tp]? = if call.topition = tp then
          some (indexed cfg call attributes
            { target s call with
              nextOffset := endOffset (target s call) call + 1
              writer := some w } w (target s call).nextOffset)
        else s.partitions[tp]?) ∧
      next = [.produce (.acked call attributes
        ⟨(target s call).handle, w.baseOffset, w.position + call.batch.framedLen,
          (target s call).nextOffset, endOffset (target s call) call⟩)] := by
  obtain ⟨s₁, s₂, inner, w, hp, ha, hs, rfl⟩ := append_ok h
  obtain ⟨file, hseg, hfile⟩ := activeSegment_file? hp ha
  have hfiles (tp : Topition) (base : Int) : s'.file? tp base =
      (s₂.appendFrame call.topition w.baseOffset inner.nextOffset call.batch).file? tp base := by
    rw [hs]
    rfl
  obtain ⟨rfl, partitions, dirs, nextHandle, rfl, hother⟩ := partition_target hp
  refine ⟨w, file, hseg, fun tp base => ?_, fun tp => ?_, rfl⟩
  · rw [hfiles, Engine.file?, Engine.appendFrame, Engine.file?_modify, hfile]
    split <;> rfl
  · obtain ⟨dirs', rfl⟩ := activeSegment_dirs ha
    rw [hs]
    simp only [Engine.setPartition, Engine.appendFrame, getElem?_insert_eq]
    split
    · rfl
    · next htp => exact hother tp htp

/-- An append that fails has moved the next offset at most, may have lost the writer or
created an empty file, and may leave a torn frame. -/
theorem append_err_files (h : append cfg s c call attributes = .err s' e) :
    s' = s ∨ ∃ writer,
      (∀ tp, s'.partitions[tp]? = if call.topition = tp then
          some { target s call with
            nextOffset := endOffset (target s call) call + 1
            writer }
        else s.partitions[tp]?) ∧
      ((writer = none ∧ ∀ tp base, s'.file? tp base = s.file? tp base) ∨
        ∃ w file, writer = some w ∧ Segment s call w file ∧
          ∀ tp base, s'.file? tp base = if call.topition = tp ∧ w.baseOffset = base then
              file.map (·.tear (min c.kept (call.batch.framedLen - 1)))
            else s.file? tp base) := by
  rcases append_err h with rfl | ⟨s₁, inner, hp, ⟨-, hs⟩ | ⟨s₂, w, ha, hs⟩⟩
  · exact .inl rfl
  · refine .inr ⟨none, fun tp => ?_, .inl ⟨rfl, fun tp base => ?_⟩⟩
    · obtain ⟨rfl, partitions, dirs, nextHandle, rfl, hother⟩ := partition_target hp
      rw [hs]
      simp only [Engine.setPartition, getElem?_insert_eq]
      split
      · rfl
      · next htp => exact hother tp htp
    · rw [← Engine.file?_partition hp base, hs]
      rfl
  · obtain ⟨file, hseg, hfile⟩ := activeSegment_file? hp ha
    refine .inr ⟨some w, fun tp => ?_, .inr ⟨w, file, rfl, hseg, fun tp base => ?_⟩⟩
    · obtain ⟨rfl, partitions, dirs, nextHandle, rfl, hother⟩ := partition_target hp
      obtain ⟨dirs', rfl⟩ := activeSegment_dirs ha
      rw [hs]
      simp only [Engine.setPartition, Engine.tearSegment, getElem?_insert_eq]
      split
      · rfl
      · next htp => exact hother tp htp
    · rw [hs, Engine.file?, Engine.setPartition, Engine.tearSegment, Engine.file?_modify, hfile]
      split <;> rfl

/-- **Why an append fails**: a fault, a partition without a directory, or a file
that has the name of the next segment. -/
theorem append_err_cause (h : append cfg s c call attributes = .err s' e) :
    c.fault ≠ none ∨ (s.partitions[call.topition]?.isSome ∧ s.dirs[call.topition]? = none) ∨
      ∃ file, s.file? call.topition (target s call).nextOffset = some file := by
  unfold append at h
  split at h
  · next hschema => exact .inl (by simp [hschema.2.2])
  · split at h
    · cases h
    · next s₁ inner hp =>
      obtain ⟨rfl, -⟩ := partition_target hp
      unfold appendTo at h
      simp only at h
      split at h
      · next hnone =>
        have hcreate : s₁.createSegment c call.topition (target s call).nextOffset = none := by
          unfold Engine.activeSegment at hnone
          split at hnone
          · split at hnone
            · exact map_eq_none_iff.1 hnone
            · cases hnone
          · exact map_eq_none_iff.1 hnone
        unfold Engine.createSegment at hcreate
        split at hcreate
        · next hdir =>
          rcases Engine.partition_eq hp with ⟨hsome, rfl⟩ | ⟨-, -, rfl⟩
          · exact .inr (.inl ⟨isSome_of_eq_some hsome, hdir⟩)
          · simp at hdir
        · next dir hdir =>
          split at hcreate
          · next hcause =>
            rcases hcause with hfault | hmem
            · exact .inl (by simp [hfault])
            · right
              right
              rw [← Engine.file?_partition hp, Engine.file?, hdir, bind_some]
              exact ⟨_, ExtTreeMap.getElem?_eq_some_getElem hmem⟩
          · cases hcreate
      · split at h
        · next hfault => exact .inl (by simp [hfault])
        · cases h

/-- An append waits only while a snapshot holds the partition map. -/
theorem append_blocked (h : append cfg s c call attributes = .blocked) :
    s.partitionsLocked = true := by
  unfold append at h
  split at h
  · cases h
  · split at h
    · next hp =>
      unfold Engine.partition at hp
      split at hp
      · cases hp
      · split at hp
        · next hlocked => exact hlocked
        · cases hp
    · unfold appendTo at h
      simp only at h
      split at h
      · cases h
      · split at h <;> cases h

end Produce

theorem Engine.file?_removeSegment :
    ((s.dirs.modify tp' (·.erase base'))[tp]?.bind (·[base]?)) =
      if tp' = tp ∧ base' = base then none else s.file? tp base := by
  simp only [Engine.file?, BTreeMap.getElem?_modify_eq]
  by_cases htp : tp' = tp
  · subst htp
    cases s.dirs[tp']? with
    | none => simp
    | some dir =>
      simp only [if_true, true_and, map_some, bind_some, getElem?_erase_eq]
  · simp [htp]

/-- **Only an append creates a file or adds to one.** -/
theorem run_file?_inv (ha : ∀ call attributes, a ≠ .produce (.append call attributes))
    (h : a.run cfg s c = .ok s' next) (hf : s'.file? tp base = some file) :
    s.file? tp base = some file := by
  cases run_touches h with
  | append => exact absurd rfl (ha _ _)
  | ensure hp => rw [← Engine.file?_partition hp base, hf]
  | removeDir =>
    simp only [Engine.file?, getElem?_erase_eq] at hf
    split at hf
    · cases hf
    · exact hf
  | removeSegment =>
    rw [Engine.file?, Engine.file?_removeSegment] at hf
    split at hf
    · cases hf
    · exact hf
  | _ => exact hf

/-- What a flusher does to a file: the frames stay, torn ones too. -/
theorem env_file? {ev : Env} (h : env s ev = some s') (hf : s'.file? tp base = some file) :
    ∃ old, s.file? tp base = some old ∧ file.frames = old.frames ∧ file.torn = old.torn := by
  cases ev with
  | syncWal =>
    cases h
    exact ⟨file, hf, rfl, rfl⟩
  | syncSegment tp' base' upTo =>
    cases h
    simp only [Engine.file?, BTreeMap.getElem?_modify_eq] at hf ⊢
    split at hf
    · obtain ⟨dir', hdir', hf⟩ := bind_eq_some_iff.1 hf
      obtain ⟨dir, hdir, rfl⟩ := map_eq_some_iff.1 hdir'
      rw [BTreeMap.getElem?_modify_eq] at hf
      rw [hdir, bind_some]
      split at hf
      · obtain ⟨old, hold, rfl, rfl⟩ := map_eq_some_iff.1 hf
        exact ⟨old, hold, rfl, rfl⟩
      · exact ⟨file, hf, rfl, rfl⟩
    · exact ⟨file, hf, rfl, rfl⟩

/-- A failure changes no file but the one an append may have created. -/
theorem run_err_file?
    (ha : ∀ call attributes, a = .produce (.append call attributes) → call.topition ≠ tp)
    (h : a.run cfg s c = .err s' e) : s'.file? tp base = s.file? tp base := by
  cases run_fails h with
  | still | wal | check | retain => rfl
  | append =>
    rcases append_err_files h with rfl | ⟨_, -, ⟨-, hfile⟩ | ⟨w, file, -, -, hfile⟩⟩
    · rfl
    · exact hfile tp base
    · rw [hfile, if_neg fun heq => ha _ _ rfl heq.1]

end Tansu.Nvme
