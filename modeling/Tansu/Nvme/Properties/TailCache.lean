import Tansu.Nvme.Tier

/-!
# Accounting of the tail cache

`index`, `advance_log_start` and the eviction of a segment to the tier drop
cached batches, each with a bookkeeping of its own.  Over every run of them the
counter of cached bytes is exact and the queue names every cached batch.
-/

namespace Tansu.Nvme

open Std List Tansu.Lib System BTreeMap

def BatchEntry.cachedLen (entry : BatchEntry) : Nat := entry.cached.getD 0

namespace PartitionInner

variable {p : PartitionInner} {budget : Nat} {offset base : Int} {entry : BatchEntry}
  {queue : List Int}

/-- The counter is exact and `queue` names every cached batch. -/
structure Accounted (p : PartitionInner) (queue : List Int) : Prop where
  bytes : p.cachedBytes = sumOf BatchEntry.cachedLen p.batches
  queued : ∀ {o entry}, p.batches[o]? = some entry → entry.cached.isSome → o ∈ queue

/-! ## The loop of `index` -/

/-- No `-=` of the loop takes more than the counter holds. -/
def noUnderflow (cacheBudget : Nat) (p : PartitionInner) : List Int → Prop
  | [] => True
  | oldest :: queue =>
    if cacheBudget < p.cachedBytes then
      match p.batches[oldest]?.bind (·.cached) with
      | none => noUnderflow cacheBudget p queue
      | some len =>
        let batches := p.batches.modify oldest ({ · with cached := none })
        len ≤ p.cachedBytes ∧ noUnderflow cacheBudget
          { p with batches, cachedBytes := wrapSubU64 p.cachedBytes len } queue
    else True

/-- The partition when the loop of `index` starts. -/
def enter (p : PartitionInner) (offset : Int) (entry : BatchEntry) : PartitionInner :=
  let batches := p.batches.insert offset entry
  match entry.cached with
  | none => { p with batches }
  | some len => { p with
      batches
      cachedBytes := p.cachedBytes + len
      cacheQueue := p.cacheQueue ++ [offset] }

theorem index_eq : p.index offset entry budget =
    (p.enter offset entry).evict budget (p.enter offset entry).cacheQueue := rfl

theorem Accounted.evict (h : p.Accounted queue) (hfits : p.cachedBytes < 2 ^ 64) :
    (p.evict budget queue).Accounted (p.evict budget queue).cacheQueue ∧
      (p.evict budget queue).cachedBytes ≤ budget ∧ p.noUnderflow budget queue := by
  induction queue generalizing p with
  | nil =>
    -- nothing is cached when the queue is empty, so the counter is zero
    have hzero : p.cachedBytes = 0 := by
      rw [h.bytes]
      refine sum_eq_zero fun n hn => ?_
      obtain ⟨⟨o, entry⟩, hmem, rfl⟩ := mem_map.1 hn
      cases hc : entry.cached with
      | none => simp [BatchEntry.cachedLen, hc]
      | some len =>
        cases h.queued (ExtTreeMap.mem_toList_iff_getElem?_eq_some.1 hmem) (by simp [hc])
    exact ⟨⟨h.bytes, h.queued⟩, hzero ▸ Nat.zero_le _, trivial⟩
  | cons oldest queue ih =>
    rw [PartitionInner.evict, noUnderflow]
    split
    · cases hlen : p.batches[oldest]?.bind (·.cached) with
      | none =>
        refine ih ⟨h.bytes, fun ho hc => ?_⟩ hfits
        rcases mem_cons.1 (h.queued ho hc) with rfl | hmem
        · rw [ho, Option.bind_some] at hlen
          simp [hlen] at hc
        · exact hmem
      | some len =>
        obtain ⟨entry, hentry, hcached⟩ := Option.bind_eq_some_iff.1 hlen
        have hsum := sumOf_modify (f := BatchEntry.cachedLen) (m := p.batches) (k := oldest)
          ({ · with cached := none })
        simp only [← h.bytes, hentry, Option.map_some, Option.getD_some, Function.comp_apply,
          BatchEntry.cachedLen, hcached, Option.getD_none, Nat.add_zero] at hsum
        have hle : len ≤ p.cachedBytes := hsum ▸ Nat.le_add_left _ _
        have hwrap := wrapSubU64_eq hle hfits
        refine (ih ⟨?_, fun ho hc => ?_⟩ (by dsimp only; omega)).imp_right
          (And.imp_right fun hno => ⟨hle, hno⟩)
        · exact hwrap.trans (Nat.sub_eq_of_eq_add hsum.symm)
        · rw [BTreeMap.getElem?_modify_eq] at ho
          split at ho
          · obtain ⟨e, -, rfl⟩ := Option.map_eq_some_iff.1 ho
            cases hc
          · next hne => exact (mem_cons.1 (h.queued ho hc)).resolve_left (Ne.symm hne)
    · next hle => exact ⟨⟨h.bytes, h.queued⟩, Nat.le_of_not_lt hle, trivial⟩

theorem Accounted.enter (h : p.Accounted p.cacheQueue) (hnew : offset ∉ p.batches)
    (entry : BatchEntry) :
    (p.enter offset entry).Accounted (p.enter offset entry).cacheQueue ∧
      (p.enter offset entry).cachedBytes =
        sumOf BatchEntry.cachedLen p.batches + entry.cachedLen := by
  have hsum := sumOf_insert (f := BatchEntry.cachedLen) (m := p.batches) (k := offset) (v := entry)
  rw [ExtTreeMap.getElem?_eq_none hnew] at hsum
  have hqueued {o e} (ho : (p.batches.insert offset entry)[o]? = some e) (hc : e.cached.isSome) :
      o ∈ p.cacheQueue ∨ o = offset ∧ e = entry := by
    rw [getElem?_insert_eq] at ho
    split at ho
    · next heq => exact .inr ⟨heq.symm, (Option.some.inj ho).symm⟩
    · exact .inl (h.queued ho hc)
  have hbytes := h.bytes
  unfold PartitionInner.enter
  cases hcached : entry.cached with
  | none =>
    have hlen : entry.cachedLen = 0 := by simp [BatchEntry.cachedLen, hcached]
    refine ⟨⟨by simp_all, fun ho hc => (hqueued ho hc).resolve_right ?_⟩, by simp_all⟩
    rintro ⟨-, rfl⟩
    simp [hcached] at hc
  | some len =>
    have hlen : entry.cachedLen = len := by simp [BatchEntry.cachedLen, hcached]
    refine ⟨⟨by simp_all, fun ho hc => mem_append.2 ((hqueued ho hc).imp_right ?_)⟩, by simp_all⟩
    rintro ⟨rfl, -⟩
    exact mem_singleton_self _

/-! ## The other operations -/

theorem sum_filterMap_cached (l : List (Int × BatchEntry)) :
    (l.filterMap (·.2.cached)).sum = (l.map (·.2.cachedLen)).sum := by
  induction l with
  | nil => rfl
  | cons e l ih => cases hc : e.2.cached <;> simp [hc, ih, BatchEntry.cachedLen]

/-- What stays cached and what was freed are what was cached. -/
theorem sum_filter_add (f : Int × BatchEntry → Bool) :
    ((p.batches.toList.filter f).map (·.2.cachedLen)).sum +
      ((p.batches.toList.filter (!f ·)).filterMap (·.2.cached)).sum =
        sumOf BatchEntry.cachedLen p.batches := by
  rw [sum_filterMap_cached, ← sum_append, ← map_append]
  exact ((filter_append_perm f _).map _).sum_eq

theorem foldl_sub (l : List Nat) (n : Nat) : l.foldl (· - ·) n = n - l.sum := by
  induction l generalizing n with
  | nil => rfl
  | cons m l ih => rw [foldl_cons, ih, sum_cons, Nat.sub_sub]

theorem Accounted.advanceLogStart (h : p.Accounted p.cacheQueue) :
    (p.advanceLogStart offset).Accounted p.cacheQueue := by
  refine ⟨?_, fun ho hc => h.queued (getElem?_filter_eq_some.1 ho).1 hc⟩
  simp only [PartitionInner.advanceLogStart, foldl_sub, h.bytes, sumOf, ExtTreeMap.toList_filter]
  refine Nat.sub_eq_of_eq_add ?_
  exact (sum_filter_add _).symm

theorem Accounted.evictSegment (h : p.Accounted p.cacheQueue) :
    (p.evictSegment base).Accounted p.cacheQueue := by
  constructor
  · have hsum := sum_filter_add (p := p) fun e => !decide (e.2.segmentBase = base)
    have hkept : sumOf BatchEntry.cachedLen (p.evictSegment base).batches =
        ((p.batches.toList.filter fun e => !decide (e.2.segmentBase = base)).map
          (·.2.cachedLen)).sum := by
      simp only [sumOf, PartitionInner.evictSegment, ExtTreeMap.toList_map, map_map,
        Function.comp_def, apply_ite BatchEntry.cachedLen]
      rw [sum_map_ite]
      simp [BatchEntry.cachedLen]
    rw [hkept]
    simp only [PartitionInner.evictSegment, h.bytes, values_eq_map_toList,
      filter_map, filterMap_map]
    refine Nat.sub_eq_of_eq_add ?_
    simpa [Function.comp_def] using hsum.symm
  · intro o entry ho hc
    simp only [PartitionInner.evictSegment, ExtTreeMap.getElem?_map] at ho
    obtain ⟨e, he, rfl⟩ := Option.map_eq_some_iff.1 ho
    refine h.queued he ?_
    split at hc
    · cases hc
    · exact hc

end PartitionInner

/-! ## Runs -/

inductive CacheStep
  | index (offset : Int) (entry : BatchEntry) (cacheBudget : Nat)
  | advanceLogStart (offset : Int)
  | evictSegment (base : Int)
  /-- The high watermark, which bounds the log start, moves. -/
  | durable (offset : Int)

namespace CacheStep

def run (p : PartitionInner) : CacheStep → PartitionInner
  | .index offset entry cacheBudget => p.index offset entry cacheBudget
  | .advanceLogStart offset => p.advanceLogStart offset
  | .evictSegment base => p.evictSegment base
  | .durable offset => { p with durableOffset := offset }

/-- A batch is indexed at an offset of its own, and the cached bytes, which are in
memory, are fewer than `2 ^ 64`. -/
def allowed (p : PartitionInner) : CacheStep → Bool
  | .index offset entry _ => decide (offset ∉ p.batches) &&
      decide (sumOf BatchEntry.cachedLen p.batches + entry.cachedLen < 2 ^ 64)
  | _ => true

def system : System PartitionInner CacheStep where
  step p l := some (run p l)

end CacheStep

open PartitionInner CacheStep

variable {p : PartitionInner}

theorem PartitionInner.Accounted.index {offset : Int} {entry : BatchEntry} {budget : Nat}
    (h : p.Accounted p.cacheQueue) (hok : allowed p (.index offset entry budget) = true) :
    (p.index offset entry budget).Accounted (p.index offset entry budget).cacheQueue ∧
      (p.index offset entry budget).cachedBytes ≤ budget ∧
        (p.enter offset entry).noUnderflow budget (p.enter offset entry).cacheQueue := by
  simp only [allowed, Bool.and_eq_true, decide_eq_true_eq] at hok
  obtain ⟨henter, hbytes⟩ := h.enter hok.1 entry
  rw [index_eq]
  exact henter.evict (hbytes ▸ hok.2)

theorem accounted_of_reach (h : system.Reach (allowed · · = true) {} p) :
    p.Accounted p.cacheQueue := by
  have hfresh : ({} : PartitionInner).Accounted [] := ⟨rfl, fun ho => by simp at ho⟩
  refine Reach.invariant (I := fun p => p.Accounted p.cacheQueue) hfresh ?_ h
  intro p p' l _ hi hok hs
  cases hs
  cases l with
  | index offset entry budget => exact (hi.index hok).1
  | advanceLogStart offset => exact hi.advanceLogStart
  | evictSegment base => exact hi.evictSegment
  | durable offset => exact ⟨hi.bytes, hi.queued⟩

/-- **The tail cache is accounted for.**  Each step moves the counter by the cached bytes that
come and go, and the queue names every cached batch, so the loop ends below the budget before
the counter could wrap. -/
theorem tail_cache_accounting (h : system.Reach (allowed · · = true) {} p) :
    p.cachedBytes = sumOf BatchEntry.cachedLen p.batches ∧
      (∀ o entry, p.batches[o]? = some entry → entry.cached.isSome → o ∈ p.cacheQueue) ∧
      ∀ offset entry budget, allowed p (.index offset entry budget) = true →
        (p.enter offset entry).noUnderflow budget (p.enter offset entry).cacheQueue ∧
          (p.index offset entry budget).cachedBytes ≤ budget := by
  have hi := accounted_of_reach h
  exact ⟨hi.bytes, fun _ _ => hi.queued, fun _ _ _ hok => (hi.index hok).2.symm⟩

/-- A batch of the given length in the segment `base`. -/
def cachedEntry (base : Int) (len : Nat) : BatchEntry :=
  ⟨base, 0, len, false, some len, 0, 0, false, false, -1, -1, -1⟩

/-- The first batch is evicted by the third, the second goes with its segment. -/
theorem tail_cache_accounting_three : ∃ p, system.Reach (allowed · · = true) {} p ∧
    (p.cachedBytes = 5 ∧ p.cacheQueue = [1, 2]) ∧
      p.cachedBytes = sumOf BatchEntry.cachedLen p.batches :=
  (exists_reach (P := fun p => p.cachedBytes = 5 ∧ p.cacheQueue = [1, 2])
    [.index 0 (cachedEntry 0 3) 10, .index 1 (cachedEntry 0 4) 10, .index 2 (cachedEntry 2 5) 10,
      .evictSegment 0, .durable 3, .advanceLogStart 2] (by decide +kernel)).imp
    fun _ h => ⟨h.1, h.2, (tail_cache_accounting h.1).1⟩

end Tansu.Nvme
