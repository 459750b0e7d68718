import Tansu.Dynostore.Placement

/-!
# Delivery

A consumer fetches at its position and moves just past the last record it was given.
What it was given is compared with the log: every batch between its start and its
position, once and in the order of the offsets, and no fetch that had a batch before it
comes back empty handed for ever.

A produce raises the high watermark before it stores its batch, so that a fetch may find
a later batch while an earlier one is on its way, and a consumer that has taken the
later one never asks for the earlier one.  Delivery is exact as long as every listing is
made in order: no batch that the consumer has not passed yet is still on its way to an
offset below one that is stored.
-/

namespace Tansu.Dynostore.Engine

open Std Tansu.Lib System Machine List BTreeMap ExtTreeMap
open Tansu.Nvme (Topition Batch ProduceCall Error)

def FetchStep.consumer : FetchStep → Consumer
  | .stage k | .watermark k _ | .list k _ | .get k _ _ _ _ | .received k _ _ => k

namespace Delivery

/-! ## What a consumer is owed -/

/-- The offset of the last record of a batch. -/
def last (e : Int × Batch) : Int := e.1 + e.2.lastOffsetDelta

/-- The batches of the log from the start of a consumer to its position. -/
def expected (s : Objects) (k : Consumer) : List (Int × Batch) :=
  (s.log k.topition).toList.filter fun e =>
    decide (k.start ≤ last e) && decide (last e < k.position)

/-- What a fetch could return when it has read the watermark: everything, or what lies
below the last stable offset. -/
def visible (s : Objects) (k : Consumer) (stage : OffsetStage) : List (Int × Batch) :=
  match k.isolation with
  | .readUncommitted => (s.log k.topition).toList
  | .readCommitted => (s.log k.topition).toList.filter fun e => decide (last e < stage.lastStable)

structure History where
  /-- The batches whose produce has been accepted at an offset. -/
  accepted : List (Topition × Int × Batch) := []
  /-- What the fetch of a task could return. -/
  due : Nat → List (Int × Batch) := fun _ => []
  /-- The fetches of a task that could return a batch, were not cut short by their
  deadline, and have not returned it. -/
  misses : Nat → Int × Batch → Nat := fun _ _ => 0

def succeeds : Step → Bool
  | .ok .. => true
  | _ => false

namespace History

def accept (h : History) (result : Step) (entry : Topition × Int × Batch) : History :=
  if succeeds result then { h with accepted := h.accepted ++ [entry] } else h

def setDue (h : History) (i : Nat) (due : List (Int × Batch)) : History :=
  { h with due := Function.update h.due i due }

/-- A fetch comes back. -/
def complete (h : History) (i : Nat) (k : Consumer) (batches : List (Int × Batch)) : History :=
  { h with misses := Function.update h.misses i fun e =>
      h.misses i e + if e ∈ h.due i ∧ k.position ≤ last e ∧ e ∉ batches then 1 else 0 }

/-- Task `i` runs a section. -/
def run (cfg : Config) (h : History) (s : Objects) (i : Nat) (c : Choice) : Section → History
  | .produce (.put call offset) =>
    h.accept (Produce.exec cfg s c (.put call offset)) (call.topition, offset, call.batch)
  | .produce (.sink call) =>
    h.accept (Produce.exec cfg s c (.sink call))
      (call.topition, s.high call.topition, call.batch)
  | .fetch (.watermark k stable) => h.setDue i (visible s k (Fetch.stage s k stable))
  | .fetch (.list ..) => h.setDue i ((h.due i).filter fun e => c.listed e.1)
  | .fetch (.get ..) => if c.expired then h.setDue i [] else h
  | .fetch (.received k _ batches) => h.complete i k batches
  | _ => h

end History

def observer (cfg : Config) (h : History) (w : EngineWorld) (l : EngineLabel) (_ : EngineWorld) :
    History :=
  match l with
  | .run i c =>
    match w.tasks[i]? with
    | some (a :: _) => h.run cfg w.shared i c a
    | _ => h
  | _ => h

def system (cfg : Config) : System (EngineWorld × History) EngineLabel :=
  (machine cfg).system.observe (observer cfg)

/-- Every batch that was accepted is stored.  A consumer has been given what lies between
its start and its position, also after the answer that it is about to receive, and the
fetches that had a batch before them and did not return it are no more than the batches
below that were given instead. -/
structure Delivered (p : EngineWorld × History) : Prop where
  stored : ∀ entry ∈ p.2.accepted, (p.1.shared.log entry.1)[entry.2.1]? = some entry.2.2
  exact : ∀ step, Pending p.1 (.fetch step) →
    step.consumer.delivered = expected p.1.shared step.consumer
  received : ∀ k stage batches, Pending p.1 (.fetch (.received k stage batches)) →
    (k.receive batches).delivered = expected p.1.shared (k.receive batches)
  prompt : ∀ i step e, Owes p.1 i (· = .fetch step) →
    p.2.misses i e ≤ (step.consumer.delivered.filter fun e' => decide (e'.1 < e.1)).length

/-! ## Listings in order -/

/-- No batch that the consumer has not passed is on its way below one that is stored. -/
def inOrder (w : EngineWorld) (k : Consumer) (stage : OffsetStage) : Bool :=
  w.tasks.all fun todo => todo.all fun
    | .produce (.put call offset) => decide (call.topition = k.topition →
        k.position ≤ offset + call.batch.lastOffsetDelta →
        ∀ base ∈ (w.shared.log k.topition).keys,
          base < Fetch.bound k.isolation stage → base < offset)
    | _ => true

/-- What arrives of a listing arrives in the order of the offsets. -/
def arrives (s : Objects) (c : Choice) (k : Consumer) : Bool :=
  decide (∀ base ∈ (s.log k.topition).keys, c.listed base = true →
    ∀ below ∈ (s.log k.topition).keys, below ≤ base → c.listed below = true)

/-- Batches have records, topics do not only feed the lake, a fetch reads the stored
metadata and watermark, and listings are made in order. -/
def allowed (w : EngineWorld) : EngineLabel → Bool
  | .run i c =>
    match w.tasks[i]? with
    | some (.fetch (.stage _) :: _) | some (.fetch (.watermark ..) :: _) => c.current
    | some (.fetch (.list k stage) :: _) => inOrder w k stage && arrives w.shared c k
    | some (.produce (.sink _) :: _) => false
    | _ => true
  | l => sized l

variable {cfg : Config} {c : Choice} {s s' : Objects} {w w' : EngineWorld} {l : EngineLabel}
  {k : Consumer} {stage : OffsetStage} {batches : List (Int × Batch)} {wanted offsets : List Int}
  {due : List (Int × Batch)} {i : Nat} {position offset delta : Int}

theorem allowed_sized (h : allowed w l = true) : sized l = true := by
  cases l with
  | run i c => rfl
  | _ => exact h

variable {rest : List Section} {tp : Topition} {e : Int × Batch} {h : History} {call : ProduceCall}
  {a : Section} {j : Nat} {p : EngineWorld × History}

theorem allowed_list (h : allowed w (.run i c) = true)
    (hat : At w i (.fetch (.list k stage)) rest) :
    inOrder w k stage = true ∧ arrives w.shared c k = true := by
  rw [allowed, hat.get] at h
  exact Bool.and_eq_true_iff.1 h

theorem allowed_sink (h : allowed w (.run i c) = true) : ¬ At w i (.produce (.sink call)) rest := by
  intro hat
  rw [allowed, hat.get] at h
  cases h

theorem inOrder_put (h : inOrder w k stage = true) (hp : Pending w (.produce (.put call offset)))
    (htp : call.topition = k.topition) (hpos : k.position ≤ offset + call.batch.lastOffsetDelta)
    {base : Int} (hbase : base ∈ w.shared.log k.topition)
    (hbound : base < Fetch.bound k.isolation stage) : base < offset := by
  obtain ⟨todo, htodo, hmem⟩ := hp
  have hput := List.all_eq_true.1 (List.all_eq_true.1 h todo htodo) _ hmem
  exact of_decide_eq_true hput htp hpos base (ExtTreeMap.mem_keys.2 hbase) hbound

/-! ## The offsets that a fetch asks for -/

theorem le_of_getLast? {x y : Int} {l : List Int} (h : l.Pairwise (· < ·))
    (hlast : l.getLast? = some y) (hx : x ∈ l) : x ≤ y := by
  obtain ⟨front, rfl⟩ := getLast?_eq_some_iff.1 hlast
  rcases mem_append.1 hx with hx | hx
  · exact Int.le_of_lt ((pairwise_append.1 h).2.2 x hx y mem_cons_self)
  · rw [mem_singleton.1 hx]

theorem sorted_wanted (h : offsets.Pairwise (· < ·)) :
    (Fetch.wanted position offsets).Pairwise (· < ·) := by
  simp only [Fetch.wanted]
  split
  · exact h.filter _
  · refine pairwise_append.2 ⟨?_, h.filter _, fun x hx y hy => ?_⟩
    · cases (offsets.filter fun base => decide (base < position)).getLast? with
      | none => exact .nil
      | some y => exact pairwise_singleton _ y
    · have hlt := (List.mem_filter.1 (mem_of_getLast? (Option.mem_toList.1 hx))).2
      have hle := (List.mem_filter.1 hy).2
      simp only [decide_eq_true_eq] at hlt hle
      omega

/-- A batch that reaches the position is asked for, also if it starts before. -/
theorem mem_wanted (hsorted : offsets.Pairwise (· < ·)) (hmem : offset ∈ offsets)
    (hpos : position ≤ offset + delta) (hapart : ∀ y ∈ offsets, offset < y → offset + delta < y) :
    offset ∈ Fetch.wanted position offsets := by
  simp only [Fetch.wanted]
  by_cases hle : position ≤ offset
  · have habove : offset ∈ offsets.filter fun base => decide (position ≤ base) :=
      List.mem_filter.2 ⟨hmem, decide_eq_true hle⟩
    split
    · exact habove
    · exact mem_append_right _ habove
  · -- It starts before the position, so no batch starts there, and it is the last before it.
    rw [if_neg]
    · have hbelow : offset ∈ offsets.filter fun base => decide (base < position) :=
        List.mem_filter.2 ⟨hmem, decide_eq_true (by omega)⟩
      cases hlast : (offsets.filter fun base => decide (base < position)).getLast? with
      | none =>
        rw [getLast?_eq_none_iff.1 hlast] at hbelow
        cases hbelow
      | some y =>
        obtain ⟨hy, hlt⟩ := List.mem_filter.1 (mem_of_getLast? hlast)
        have hle' := le_of_getLast? (hsorted.filter _) hlast hbelow
        have hnot : ¬ offset < y := by
          intro h
          have hfar := hapart y hy h
          simp only [decide_eq_true_eq] at hlt
          omega
        obtain rfl : offset = y := by omega
        exact mem_append_left _ mem_cons_self
    · intro hhead
      have hat := (List.mem_filter.1 (mem_of_head? hhead)).1
      have hfar := hapart position hat (by omega)
      omega

theorem sorted_offsets : (Fetch.offsets s c k stage).Pairwise (· < ·) := by
  unfold Fetch.offsets
  split
  · refine List.Pairwise.filter _ ?_
    exact ordered_keys.imp fun h => compare_lt_iff_lt.1 h
  · exact .nil

/-! ## Invariants of a consumer -/

/-- What a consumer has been given, and that nothing comes up behind it. -/
structure Caught (w : EngineWorld) (k : Consumer) : Prop where
  start_le : k.start ≤ k.position
  bounded : k.position = k.start ∨ k.position ≤ w.shared.high k.topition
  sorted : k.delivered.Pairwise (·.1 < ·.1)
  mem : ∀ e, e ∈ k.delivered ↔
    (w.shared.log k.topition)[e.1]? = some e.2 ∧ k.start ≤ last e ∧ last e < k.position
  ahead : ∀ offset delta, Taken w k.topition offset delta → offset ∉ w.shared.log k.topition →
    k.start ≤ offset + delta → k.position ≤ offset + delta

/-- What a fetch has found and what it has still to ask for: below it, everything that
reaches the position. -/
structure Window (w : EngineWorld) (k : Consumer) (batches : List (Int × Batch))
    (wanted : List Int) : Prop where
  sorted : (batches.map Prod.fst ++ wanted).Pairwise (· < ·)
  found : ∀ e ∈ batches, (w.shared.log k.topition)[e.1]? = some e.2 ∧ k.position ≤ last e
  listed : ∀ base ∈ wanted, base ∈ w.shared.log k.topition
  closed : ∀ offset delta, Taken w k.topition offset delta → k.position ≤ offset + delta →
    (∃ base ∈ batches.map Prod.fst ++ wanted, offset ≤ base) →
    offset ∈ batches.map Prod.fst ++ wanted

/-- What a fetch could return it will return, or one below it. -/
def Promised (w : EngineWorld) (due : List (Int × Batch)) (k : Consumer)
    (batches : List (Int × Batch)) (wanted : List Int) : Prop :=
  ∀ e ∈ due, (w.shared.log k.topition)[e.1]? = some e.2 ∧ (k.position ≤ last e →
    e ∈ batches ∨ e.1 ∈ wanted ∨ ∃ e' ∈ batches, e'.1 < e.1)

def Good (w : EngineWorld) (due : List (Int × Batch)) : FetchStep → Prop
  | .stage k | .watermark k _ => Caught w k
  | .list k stage => Caught w k ∧ ∀ e ∈ due,
      (w.shared.log k.topition)[e.1]? = some e.2 ∧ last e < Fetch.bound k.isolation stage
  | .get k _ wanted _ batches =>
    Caught w k ∧ Window w k batches wanted ∧ Promised w due k batches wanted
  | .received k _ batches => Caught w k ∧ Window w k batches [] ∧ Promised w due k batches []

theorem Good.caught {step : FetchStep} (h : Good w due step) : Caught w step.consumer := by
  cases step with
  | stage k | watermark k stable => exact h
  | list k stage | get k stage wanted bytes batches | received k stage batches => exact h.1

/-! ### The consumer itself -/

theorem last_lt_of_lt (hw : Placed w) {e' : Int × Batch} (he : (w.shared.log tp)[e.1]? = some e.2)
    (he' : (w.shared.log tp)[e'.1]? = some e'.2) (hlt : e.1 < e'.1) : last e < e'.1 :=
  hw.apart tp e.1 _ e'.1 _ (.stored _ he rfl) (.stored _ he' rfl) hlt

theorem le_last (hw : Placed w) (he : (w.shared.log tp)[e.1]? = some e.2) : e.1 ≤ last e := by
  have hnn := hw.nonneg tp e.1 _ (.stored _ he rfl)
  unfold last
  omega

theorem Caught.delivered_eq (h : Caught w k) : k.delivered = expected w.shared k := by
  refine eq_filter_toList (h.sorted.imp fun hlt => compare_lt_iff_lt.2 hlt) fun e => ?_
  rw [h.mem e]
  simp

/-- The batches of an answer, up to the last one, are all there were. -/
theorem Window.mem_batches (hw : Placed w) (h : Window w k batches []) {b : Int × Batch}
    (hlast : batches.getLast? = some b) (he : (w.shared.log k.topition)[e.1]? = some e.2)
    (hpos : k.position ≤ last e) : e ∈ batches ↔ last e < last b + 1 := by
  have hb := mem_of_getLast? hlast
  obtain ⟨hbstored, -⟩ := h.found b hb
  have hbase : ∀ e' ∈ batches, e'.1 ≤ b.1 := by
    intro e' he'
    have hsorted := h.sorted
    rw [append_nil] at hsorted
    refine le_of_getLast? hsorted ?_ (List.mem_map_of_mem he')
    rw [getLast?_map, hlast]
    rfl
  constructor
  · intro hmem
    rcases Int.lt_or_eq_of_le (hbase e hmem) with hlt | heq
    · have hfar := last_lt_of_lt hw he hbstored hlt
      have hle := le_last hw hbstored
      omega
    · rw [heq, hbstored] at he
      obtain rfl : b = e := Prod.ext heq.symm (Option.some.inj he)
      omega
  · intro hlt
    have hle : e.1 ≤ b.1 := by
      by_contra hgt
      have hfar := last_lt_of_lt hw hbstored he (by omega)
      have hle := le_last hw he
      omega
    have hin := h.closed e.1 _ (.stored _ he rfl) hpos
      ⟨b.1, mem_append_left _ (List.mem_map_of_mem hb), hle⟩
    rw [append_nil] at hin
    obtain ⟨e', he', heq⟩ := List.mem_map.1 hin
    have hstored := (h.found e' he').1
    rw [heq, he] at hstored
    obtain rfl : e = e' := Prod.ext heq.symm (Option.some.inj hstored)
    exact he'

/-- **Receiving.**  An answer moves the position past what it brings, and past nothing
else. -/
theorem Caught.receive (hw : Placed w) (h : Caught w k) (hwin : Window w k batches []) :
    Caught w (k.receive batches) := by
  cases hlast : batches.getLast? with
  | none =>
    obtain rfl := getLast?_eq_none_iff.1 hlast
    simpa [Consumer.receive] using h
  | some b =>
    have hb := mem_of_getLast? hlast
    obtain ⟨hbstored, hbpos⟩ := hwin.found b hb
    have heq : k.receive batches =
        { k with position := last b + 1, delivered := k.delivered ++ batches } := by
      simp [Consumer.receive, hlast, last]
    have hhigh : last b < w.shared.high k.topition :=
      hw.below k.topition b.1 _ (.stored _ hbstored rfl)
    rw [heq]
    refine ⟨?_, .inr hhigh, ?_, fun e => ?_, fun offset delta ht hnew hstart => ?_⟩
    · have hle := h.start_le
      dsimp only
      omega
    · have hsorted := hwin.sorted
      rw [append_nil, pairwise_map] at hsorted
      refine pairwise_append.2 ⟨h.sorted, hsorted, fun e he e' he' => ?_⟩
      obtain ⟨hstored, -, hlt⟩ := (h.mem e).1 he
      obtain ⟨hstored', hpos'⟩ := hwin.found e' he'
      by_contra hge
      rcases Int.lt_or_eq_of_le (Int.not_lt.1 hge) with hlt' | heq'
      · have hfar := last_lt_of_lt hw hstored' hstored hlt'
        have hle := le_last hw hstored
        omega
      · rw [heq', hstored] at hstored'
        obtain rfl : e' = e := Prod.ext heq' (Option.some.inj hstored').symm
        omega
    · dsimp only
      rw [mem_append, h.mem e]
      have hle := h.start_le
      constructor
      · rintro (⟨hstored, hstart, hlt⟩ | hmem)
        · exact ⟨hstored, hstart, by omega⟩
        · obtain ⟨hstored, hpos⟩ := hwin.found e hmem
          exact ⟨hstored, by omega, (hwin.mem_batches hw hlast hstored hpos).1 hmem⟩
      · rintro ⟨hstored, hstart, hlt⟩
        by_cases hpos : k.position ≤ last e
        · exact .inr ((hwin.mem_batches hw hlast hstored hpos).2 hlt)
        · exact .inl ⟨hstored, hstart, by omega⟩
    · dsimp only at ht hnew hstart ⊢
      have hpos := h.ahead offset delta ht hnew hstart
      have hnn := hw.nonneg _ _ _ ht
      -- Nothing on its way lies below the last batch of the answer.
      have hgt : b.1 < offset := by
        by_contra hle
        have hin := hwin.closed offset delta ht hpos
          ⟨b.1, mem_append_left _ (List.mem_map_of_mem hb), Int.not_lt.1 hle⟩
        rw [append_nil] at hin
        obtain ⟨e, he, rfl⟩ := List.mem_map.1 hin
        exact hnew (mem_iff_exists.2 ⟨_, (hwin.found e he).1⟩)
      have hfar := hw.apart _ _ _ _ _ (.stored _ hbstored rfl) ht hgt
      unfold last
      omega

/-! ### Other steps -/

theorem Caught.step (hw : Placed w) (hw' : Placed w') (hs : (machine cfg).step w l = some w')
    (h : Caught w k) : Caught w' k := by
  refine ⟨h.start_le, ?_, h.sorted, fun e => ?_, fun offset delta ht hnew hstart => ?_⟩
  · have hmono : w.shared.high k.topition ≤ w'.shared.high k.topition := high_step hw.sized hs
    rcases h.bounded with heq | hle
    · exact .inl heq
    · exact .inr (by omega)
  · rw [h.mem e]
    constructor
    · rintro ⟨hstored, hrange⟩
      exact ⟨getElem?_log_step hs hstored, hrange⟩
    · rintro ⟨hstored, hstart, hlt⟩
      rcases stored_step hs hstored with hstored | ⟨hnew, ht⟩
      · exact ⟨hstored, hstart, hlt⟩
      · have hpos := h.ahead _ _ ht hnew hstart
        unfold last at hlt
        omega
  · rcases taken_step hs ht with ht | ⟨-, -, -, -, -, -, -, -, -, rfl⟩
    · exact h.ahead _ _ ht (fun hmem => hnew (mem_log_step hs hmem)) hstart
    · have hnn := hw'.nonneg _ _ _ ht
      rcases h.bounded with heq | hle <;> omega

theorem Window.step (hw : Placed w) (hs : (machine cfg).step w l = some w')
    (h : Window w k batches wanted) : Window w' k batches wanted := by
  refine ⟨h.sorted, fun e he => ?_, fun base hbase => ?_, fun offset delta ht hpos hbelow => ?_⟩
  · obtain ⟨hstored, hpos⟩ := h.found e he
    exact ⟨getElem?_log_step hs hstored, hpos⟩
  · exact mem_log_step hs (h.listed base hbase)
  · rcases taken_step hs ht with ht | ⟨-, -, -, -, -, -, -, -, -, rfl⟩
    · exact h.closed _ _ ht hpos hbelow
    · -- What is new lies above everything that is stored.
      exfalso
      obtain ⟨base, hbase, hle⟩ := hbelow
      have hstored : base ∈ w.shared.log k.topition := by
        rcases mem_append.1 hbase with hbase | hbase
        · obtain ⟨e, he, rfl⟩ := List.mem_map.1 hbase
          exact mem_iff_exists.2 ⟨_, (h.found e he).1⟩
        · exact h.listed base hbase
      obtain ⟨batch, hb⟩ := mem_iff_exists.1 hstored
      have ht : Taken w k.topition base batch.lastOffsetDelta := .stored batch hb rfl
      have hlt := hw.below _ _ _ ht
      have hnn := hw.nonneg _ _ _ ht
      omega

theorem Promised.step (hs : (machine cfg).step w l = some w')
    (h : Promised w due k batches wanted) : Promised w' due k batches wanted := by
  intro e he
  obtain ⟨hstored, hor⟩ := h e he
  exact ⟨getElem?_log_step hs hstored, hor⟩

theorem Good.step {step : FetchStep} (hw : Placed w) (hw' : Placed w')
    (hs : (machine cfg).step w l = some w') (h : Good w due step) : Good w' due step := by
  cases step with
  | stage k | watermark k stable => exact Caught.step hw hw' hs h
  | list k stage =>
    refine ⟨h.1.step hw hw' hs, fun e he => ?_⟩
    obtain ⟨hstored, hbound⟩ := h.2 e he
    exact ⟨getElem?_log_step hs hstored, hbound⟩
  | get k stage wanted bytes batches | received k stage batches =>
    exact ⟨h.1.step hw hw' hs, h.2.1.step hw hs, h.2.2.step hs⟩

/-! ### The sections of a fetch -/

theorem mem_visible (hw : Placed w) {stable : Option Int}
    (he : e ∈ visible w.shared k (Fetch.stage w.shared k stable)) :
    (w.shared.log k.topition)[e.1]? = some e.2 ∧
      last e < Fetch.bound k.isolation (Fetch.stage w.shared k stable) := by
  unfold visible at he
  cases hiso : k.isolation with
  | readUncommitted =>
    rw [hiso] at he
    have hstored := mem_toList_iff_getElem?_eq_some.1 he
    exact ⟨hstored, hw.below k.topition e.1 _ (.stored _ hstored rfl)⟩
  | readCommitted =>
    rw [hiso] at he
    obtain ⟨hmem, hlt⟩ := List.mem_filter.1 he
    exact ⟨mem_toList_iff_getElem?_eq_some.1 hmem, of_decide_eq_true hlt⟩

/-- A batch that is listed and reaches the position is asked for. -/
theorem mem_wanted_of_stored (hw : Placed w) (hstored : (w.shared.log k.topition)[e.1]? = some e.2)
    (hpos : k.position ≤ last e) (hmem : e.1 ∈ Fetch.offsets w.shared c k stage) :
    e.1 ∈ Fetch.wanted k.position (Fetch.offsets w.shared c k stage) := by
  refine mem_wanted sorted_offsets hmem hpos fun y hy hlt => ?_
  obtain ⟨batch, hb⟩ := mem_iff_exists.1 (Fetch.mem_offsets.1 hy).2.1
  exact hw.apart _ _ _ _ _ (.stored _ hstored rfl) (.stored batch hb rfl) hlt

theorem window_list (hw : Placed w) (horder : inOrder w k stage = true)
    (harrives : arrives w.shared c k = true) :
    Window w k [] (Fetch.wanted k.position (Fetch.offsets w.shared c k stage)) := by
  refine ⟨sorted_wanted sorted_offsets, fun e he => absurd he not_mem_nil,
    fun base hbase => (Fetch.mem_offsets.1 (Fetch.mem_of_mem_wanted hbase)).2.1, ?_⟩
  rintro offset delta ht hpos ⟨base, hbase, hle⟩
  obtain ⟨hlt, hbstored, hlisted, hbound⟩ := Fetch.mem_offsets.1 (Fetch.mem_of_mem_wanted hbase)
  cases ht with
  | stored batch hb hd =>
    have hmem : offset ∈ w.shared.log k.topition := mem_iff_exists.2 ⟨batch, hb⟩
    have harrived := of_decide_eq_true harrives base (ExtTreeMap.mem_keys.2 hbstored) hlisted
      offset (ExtTreeMap.mem_keys.2 hmem) hle
    refine mem_wanted_of_stored hw (e := (offset, batch)) hb ?_
      (Fetch.mem_offsets.2 ⟨hlt, hmem, harrived, by omega⟩)
    rw [last, hd]
    exact hpos
  | inFlight call hp htp hd =>
    have habove := inOrder_put horder hp htp (hd ▸ hpos) hbstored hbound
    omega

theorem promised_list (hw : Placed w) (hdue : ∀ e ∈ due,
      (w.shared.log k.topition)[e.1]? = some e.2 ∧ last e < Fetch.bound k.isolation stage) :
    Promised w (due.filter fun e => c.listed e.1) k []
      (Fetch.wanted k.position (Fetch.offsets w.shared c k stage)) := by
  intro e he
  obtain ⟨hmem, hlisted⟩ := List.mem_filter.1 he
  obtain ⟨hstored, hbound⟩ := hdue e hmem
  refine ⟨hstored, fun hpos => .inr (.inl (mem_wanted_of_stored hw hstored hpos ?_))⟩
  have hle := le_last hw hstored
  exact Fetch.mem_offsets.2 ⟨by omega, mem_iff_exists.2 ⟨_, hstored⟩, hlisted, by omega⟩

section Get

variable {base : Int} {batch : Batch} {rest : List Int}

theorem Window.pass (hw : Placed w) (h : Window w k batches (base :: rest))
    (hb : (w.shared.log k.topition)[base]? = some batch)
    (hpos : ¬ k.position ≤ base + batch.lastOffsetDelta) : Window w k batches rest := by
  have hsub : (batches.map Prod.fst ++ rest).Sublist (batches.map Prod.fst ++ base :: rest) :=
    (sublist_cons_self base rest).append_left _
  refine ⟨h.sorted.sublist hsub, h.found, fun base' hbase' => h.listed base'
    (mem_cons_of_mem _ hbase'), ?_⟩
  rintro offset delta ht hpos' ⟨base', hbase', hle⟩
  have hin := h.closed offset delta ht hpos' ⟨base', hsub.subset hbase', hle⟩
  rcases mem_append.1 hin with hin | hin
  · exact mem_append_left _ hin
  · rcases mem_cons.1 hin with rfl | hin
    · rw [hw.delta_eq ht hb] at hpos'
      exact absurd hpos' hpos
    · exact mem_append_right _ hin

theorem Window.push (h : Window w k batches (base :: rest))
    (hb : (w.shared.log k.topition)[base]? = some batch)
    (hpos : k.position ≤ base + batch.lastOffsetDelta) :
    Window w k (batches ++ [(base, batch)]) rest := by
  have heq : (batches ++ [(base, batch)]).map Prod.fst ++ rest =
      batches.map Prod.fst ++ base :: rest := by simp
  refine ⟨heq ▸ h.sorted, fun e he => ?_, fun base' hbase' => h.listed base'
    (mem_cons_of_mem _ hbase'), heq ▸ h.closed⟩
  rcases mem_append.1 he with he | he
  · exact h.found e he
  · rw [mem_singleton.1 he]
    exact ⟨hb, hpos⟩

theorem Window.stop (h : Window w k batches wanted) : Window w k batches [] := by
  refine ⟨?_, h.found, fun base hbase => absurd hbase not_mem_nil, ?_⟩
  · rw [append_nil]
    exact (pairwise_append.1 h.sorted).1
  · rintro offset delta ht hpos ⟨base, hbase, hle⟩
    rw [append_nil] at hbase ⊢
    rcases mem_append.1 (h.closed offset delta ht hpos
      ⟨base, mem_append_left _ hbase, hle⟩) with hin | hin
    · exact hin
    · have hlt := (pairwise_append.1 h.sorted).2.2 base hbase offset hin
      omega

theorem Promised.nil : Promised w [] k batches wanted := fun _ he => absurd he not_mem_nil

theorem Promised.pass (h : Promised w due k batches (base :: rest))
    (hb : (w.shared.log k.topition)[base]? = some batch)
    (hpos : ¬ k.position ≤ base + batch.lastOffsetDelta) : Promised w due k batches rest := by
  intro e he
  obtain ⟨hstored, hor⟩ := h e he
  refine ⟨hstored, fun hpos' => ?_⟩
  rcases hor hpos' with hin | hin | hbelow
  · exact .inl hin
  · rcases mem_cons.1 hin with heq | hin
    · rw [heq, hb] at hstored
      cases hstored
      rw [last, heq] at hpos'
      exact absurd hpos' hpos
    · exact .inr (.inl hin)
  · exact .inr (.inr hbelow)

/-- Once there is a batch in the answer, what was to be asked for lies above it. -/
theorem Promised.push (h : Promised w due k batches (base :: rest))
    (hwin : Window w k batches (base :: rest))
    (hb : (w.shared.log k.topition)[base]? = some batch) :
    Promised w due k (batches ++ [(base, batch)]) wanted := by
  intro e he
  obtain ⟨hstored, hor⟩ := h e he
  refine ⟨hstored, fun hpos' => ?_⟩
  rcases hor hpos' with hin | hin | ⟨e', he', hlt⟩
  · exact .inl (mem_append_left _ hin)
  · rcases mem_cons.1 hin with heq | hin
    · rw [heq, hb] at hstored
      obtain rfl : e = (base, batch) := Prod.ext heq (Option.some.inj hstored).symm
      exact .inl (mem_append_right _ mem_cons_self)
    · have hlt := (pairwise_cons.1 (pairwise_append.1 hwin.sorted).2.1).1 e.1 hin
      exact .inr (.inr ⟨(base, batch), mem_append_right _ mem_cons_self, hlt⟩)
  · exact .inr (.inr ⟨e', mem_append_left _ he', hlt⟩)

end Get

/-- One request of the loop over the offsets. -/
theorem Good.get {bytes : Nat} {next : List Section} (hw : Placed w)
    (h : Good w due (.get k stage wanted bytes batches))
    (he : Fetch.get w.shared c k stage bytes batches wanted = .ok s' next) :
    ∃ step, next = [.fetch step] ∧ step.consumer = k ∧
      Good w (if c.expired then [] else due) step := by
  obtain ⟨hcaught, hwin, hprom⟩ := h
  cases wanted with
  | nil =>
    cases he
    refine ⟨_, rfl, rfl, hcaught, hwin, ?_⟩
    split
    · exact .nil
    · exact hprom
  | cons base rest =>
    simp only [Fetch.get] at he
    split at he
    · cases he
    · next batch hb =>
      split at he
      · next hpos =>
        split at he
        · cases he
          refine ⟨_, rfl, rfl, hcaught, (hwin.push hb hpos).stop, ?_⟩
          split
          · exact .nil
          · exact hprom.push hwin hb
        · next hgo =>
          cases he
          rw [if_neg fun hexp => hgo (.inr hexp)]
          exact ⟨_, rfl, rfl, hcaught, hwin.push hb hpos, hprom.push hwin hb⟩
      · next hpos =>
        split at he
        · next hexp =>
          cases he
          rw [if_pos hexp]
          exact ⟨_, rfl, rfl, hcaught, hwin.stop, .nil⟩
        · next hexp =>
          cases he
          rw [if_neg hexp]
          exact ⟨_, rfl, rfl, hcaught, hwin.pass hw hb hpos, hprom.pass hb hpos⟩

/-! ## Whole runs -/

/-- The batches below `e` that a consumer was given. -/
def below (k : Consumer) (e : Int × Batch) : Nat :=
  (k.delivered.filter fun e' => decide (e'.1 < e.1)).length

def Fine (w : EngineWorld) (h : History) (i : Nat) (step : FetchStep) : Prop :=
  Good w (h.due i) step ∧ ∀ e, h.misses i e ≤ below step.consumer e

/-- A fetch that comes back without a batch it could return brings one below. -/
theorem below_receive (hprom : Promised w (h.due i) k batches []) (hle : h.misses i e ≤ below k e) :
    (h.complete i k batches).misses i e ≤ below (k.receive batches) e := by
  simp only [History.complete, Function.update_self, below, Consumer.receive, filter_append,
    length_append] at hle ⊢
  split
  · next hmiss =>
    obtain ⟨hdue, hpos, hnot⟩ := hmiss
    obtain ⟨e', he', hlt⟩ : ∃ e' ∈ batches, e'.1 < e.1 := by
      rcases (hprom e hdue).2 hpos with hin | hin | hbelow
      · exact absurd hin hnot
      · cases hin
      · exact hbelow
    have hmem : e' ∈ batches.filter fun e' => decide (e'.1 < e.1) :=
      List.mem_filter.2 ⟨he', decide_eq_true hlt⟩
    have hone := length_pos_of_mem hmem
    omega
  · omega

/-- **The fetch.**  Each of its sections leads to one that keeps the account. -/
theorem Fine.next (cfg : Config) {h : History} {step : FetchStep} {rest next : List Section}
    (hw : Placed w)
    (hok : allowed w (.run i c) = true) (hat : At w i (.fetch step) rest) (hi : Fine w h i step)
    (he : Fetch.exec w.shared c step = .ok s' next) {b : Section} (hb : b ∈ next) :
    ∃ step', next = [.fetch step'] ∧ Fine w (h.run cfg w.shared i c (.fetch step)) i step' := by
  obtain ⟨hgood, hmisses⟩ := hi
  cases step with
  | received k stage batches =>
    cases he
    split at hb
    · next hagain =>
      rw [if_pos hagain]
      refine ⟨_, rfl, hgood.1.receive hw hgood.2.1, fun e => ?_⟩
      exact below_receive hgood.2.2 (hmisses e)
    · cases hb
  | stage k =>
    simp only [Fetch.exec] at he
    split at he
    · cases he
    · cases he
      exact ⟨_, rfl, hgood, hmisses⟩
  | watermark k stable =>
    simp only [Fetch.exec] at he
    split at he
    · cases he
    · cases he
      rw [allowed, hat.get] at hok
      -- what was stored before this read of the watermark lies below it
      rw [Choice.reads_of_current hok]
      refine ⟨_, rfl, ⟨hgood, fun e hmem => mem_visible hw ?_⟩, hmisses⟩
      simpa [History.run, History.setDue] using hmem
  | list k stage =>
    simp only [Fetch.exec] at he
    split at he
    · cases he
    · cases he
      obtain ⟨horder, harrives⟩ := allowed_list hok hat
      refine ⟨_, rfl, ⟨hgood.1, window_list hw horder harrives, ?_⟩, hmisses⟩
      simpa [History.run, History.setDue] using promised_list hw hgood.2
  | get k stage wanted bytes batches =>
    simp only [Fetch.exec] at he
    split at he
    · cases he
    · obtain ⟨step', rfl, hk, hgood'⟩ := Good.get hw hgood he
      refine ⟨step', rfl, ?_⟩
      simp only [History.run]
      split at hgood'
      · next hexp =>
        rw [if_pos hexp]
        refine ⟨by simpa [History.setDue] using hgood', fun e => ?_⟩
        rw [hk]
        exact hmisses e
      · next hexp =>
        rw [if_neg hexp]
        refine ⟨hgood', fun e => ?_⟩
        rw [hk]
        exact hmisses e

theorem run_of_ne (hne : j ≠ i) :
    (h.run cfg s i c a).due j = h.due j ∧ (h.run cfg s i c a).misses j = h.misses j := by
  unfold History.run
  split
  · unfold History.accept
    split <;> exact ⟨rfl, rfl⟩
  · unfold History.accept
    split <;> exact ⟨rfl, rfl⟩
  · exact ⟨Function.update_of_ne hne _ _, rfl⟩
  · exact ⟨Function.update_of_ne hne _ _, rfl⟩
  · split
    · exact ⟨Function.update_of_ne hne _ _, rfl⟩
    · exact ⟨rfl, rfl⟩
  · exact ⟨rfl, Function.update_of_ne hne _ _⟩
  · exact ⟨rfl, rfl⟩

theorem observer_of_ne (hl : ∀ c, l ≠ .run j c) :
    (observer cfg h w l w').due j = h.due j ∧ (observer cfg h w l w').misses j = h.misses j := by
  cases l with
  | run i c =>
    have hne : j ≠ i := by
      rintro rfl
      exact hl c rfl
    simp only [observer]
    split
    · exact run_of_ne hne
    · exact ⟨rfl, rfl⟩
  | _ => exact ⟨rfl, rfl⟩

theorem observer_run (hat : At w i a rest) :
    observer cfg h w (.run i c) w' = h.run cfg w.shared i c a := by
  simp only [observer, hat.get]

structure Inv (p : EngineWorld × History) : Prop where
  placed : Placed p.1
  stored : ∀ entry ∈ p.2.accepted, (p.1.shared.log entry.1)[entry.2.1]? = some entry.2.2
  /-- A fetch is a task of its own. -/
  tasks : ∀ (i : Nat) todo, p.1.tasks[i]? = some todo → ∀ step, .fetch step ∈ todo →
    todo = [.fetch step] ∧ Fine p.1 p.2 i step
  fresh : ∀ i e, p.1.tasks.length ≤ i → p.2.misses i e = 0

theorem mem_accepted {entry : Topition × Int × Batch} (hs : (machine cfg).step w l = some w')
    (hok : allowed w l = true) (hmem : entry ∈ (observer cfg h w l w').accepted) :
    entry ∈ h.accepted ∨ (w'.shared.log entry.1)[entry.2.1]? = some entry.2.2 := by
  cases l with
  | env e => exact nomatch e
  | spawn r => exact .inl hmem
  | run i c =>
    obtain ⟨a, rest, hat, hcase⟩ := step_run hs
    rw [observer_run hat] at hmem
    unfold History.run at hmem
    split at hmem
    · next call offset =>
      unfold History.accept at hmem
      split at hmem
      · next hsucc =>
        rcases mem_append.1 hmem with hmem | hmem
        · exact .inl hmem
        · right
          rw [mem_singleton.1 hmem]
          rcases hcase with @⟨s, next, he⟩ | @⟨s, e, he⟩
          · have he : Produce.exec cfg w.shared c (.put call offset) = .ok s next := he
            simp only [Produce.exec] at he
            split at he
            · cases he
            · obtain ⟨-, rfl, -⟩ := Produce.put_ok he
              simp [Objects.log_putBatch]
          · have he : Produce.exec cfg w.shared c (.put call offset) = .err s e := he
            rw [he] at hsucc
            cases hsucc
      · exact .inl hmem
    · exact absurd hat (allowed_sink hok)
    · exact .inl hmem
    · exact .inl hmem
    · split at hmem <;> exact .inl hmem
    · exact .inl hmem
    · exact .inl hmem

theorem start_fetch {r : Request} {step : FetchStep} (h : .fetch step ∈ r.start) :
    ∃ tp isolation start, step = .stage { topition := tp, isolation, start, position := start } ∧
      r.start = [.fetch step] := by
  cases r with
  | consume tp isolation start =>
    cases mem_singleton.1 h
    exact ⟨tp, isolation, start, rfl, rfl⟩
  | offsetCommit group offsets =>
    obtain ⟨_, -, heq⟩ := List.mem_map.1 h
    cases heq
  | _ => cases mem_singleton.1 h

theorem caught_start {isolation : IsolationLevel} {start : Int} :
    Caught w { topition := tp, isolation, start, position := start } := by
  refine ⟨Int.le_refl _, .inl rfl, .nil, fun e => ?_, fun offset delta _ _ hstart => hstart⟩
  simp

theorem Inv.step {p p' : EngineWorld × History} (hi : Inv p) (hok : allowed p.1 l = true)
    (h : (system cfg).step p l = some p') : Inv p' := by
  obtain ⟨hs, hhist⟩ := observe_step h
  have hs : (machine cfg).step p.1 l = some p'.1 := hs
  have hplaced := hi.placed.step (allowed_sized hok) hs
  refine ⟨hplaced, fun entry hmem => ?_, fun j todo htodo step hmem => ?_, fun j e hj => ?_⟩
  · rw [hhist] at hmem
    rcases mem_accepted hs hok hmem with hmem | hstored
    · exact getElem?_log_step hs (hi.stored entry hmem)
    · exact hstored
  · -- A section that is not the one just run keeps its account.
    have hkeep (hl : ∀ c, l ≠ .run j c) (hfine : Fine p.1 p.2 j step) : Fine p'.1 p'.2 j step := by
      have hobs : (observer cfg p.2 p.1 l p'.1).due j = p.2.due j ∧
          (observer cfg p.2 p.1 l p'.1).misses j = p.2.misses j := observer_of_ne hl
      rw [Fine, hhist, hobs.1, hobs.2]
      exact ⟨hfine.1.step hi.placed hplaced hs, hfine.2⟩
    rcases step_tasks hs htodo with ⟨hl, ht⟩ | ⟨r, rfl, rfl, rfl⟩ |
      ⟨c, a, rest, next, rfl, hat, he, rfl⟩ | ⟨c, a, rest, e, rfl, hat, he, rfl⟩
    · obtain ⟨heq, hfine⟩ := hi.tasks j todo ht step hmem
      exact ⟨heq, hkeep hl hfine⟩
    · obtain ⟨tp, isolation, start, rfl, heq⟩ := start_fetch hmem
      refine ⟨heq, hkeep (fun _ => nofun) ⟨caught_start, fun e => ?_⟩⟩
      rw [hi.fresh _ e (Nat.le_refl _)]
      exact Nat.zero_le _
    · have hnot : .fetch step ∉ rest := by
        intro hrest
        have heq := (hi.tasks j _ hat step (mem_cons_of_mem _ hrest)).1
        cases heq
        cases hrest
      have hnext : .fetch step ∈ next := (mem_append.1 hmem).resolve_right hnot
      obtain ⟨step₀, rfl⟩ : ∃ step₀, a = .fetch step₀ := by
        cases mem_next he hnext with
        | fetch step₀ => exact ⟨step₀, rfl⟩
      obtain ⟨heq, hfine⟩ := hi.tasks j _ hat step₀ mem_cons_self
      cases heq
      obtain ⟨step', rfl, hgood, hmisses⟩ := hfine.next cfg hi.placed hok hat he hnext
      cases mem_singleton.1 hnext
      refine ⟨rfl, ?_⟩
      rw [Fine, hhist, observer_run hat]
      exact ⟨hgood.step hi.placed hplaced hs, hmisses⟩
    · have hrest := mem_cons_of_mem a ((unwind_suffix rest).subset hmem)
      have heq := (hi.tasks j _ hat step hrest).1
      cases heq
      cases hmem
  · have hlen : p.1.tasks.length ≤ p'.1.tasks.length := by
      cases l with
      | env e => exact nomatch e
      | spawn r =>
        rw [← Option.some.inj hs]
        simp
      | run i c =>
        obtain ⟨_, _, -, hran⟩ := step_run hs
        exact hran.length.ge
    have hother : ∀ c, l ≠ .run j c := by
      rintro c rfl
      obtain ⟨a, rest, hat, -⟩ := step_run hs
      have hlt := hat.lt
      omega
    rw [hhist, (observer_of_ne hother).2]
    exact hi.fresh j e (by omega)

section Runs

variable {topics : BTreeMap Tansu.Nvme.Topic Tansu.Nvme.TopicMetadata} {p : EngineWorld × History}

theorem inv_opened : Inv (opened topics, {}) :=
  ⟨placed_opened, fun _ hmem => absurd hmem not_mem_nil, fun i todo ht => (by cases ht),
    fun _ _ _ => rfl⟩

theorem Inv.delivered (hi : Inv p) : Delivered p := by
  have hfine {step : FetchStep} (hp : Pending p.1 (.fetch step)) : ∃ i, Fine p.1 p.2 i step := by
    obtain ⟨todo, hmem, hstep⟩ := hp
    obtain ⟨i, hi', rfl⟩ := getElem_of_mem hmem
    exact ⟨i, (hi.tasks i _ (getElem?_eq_getElem hi') step hstep).2⟩
  refine ⟨hi.stored, fun step hp => ?_, fun k stage batches hp => ?_, fun i step e howes => ?_⟩
  · obtain ⟨i, hgood, -⟩ := hfine hp
    exact hgood.caught.delivered_eq
  · obtain ⟨i, hgood, -⟩ := hfine hp
    exact (hgood.1.receive hi.placed hgood.2.1).delivered_eq
  · obtain ⟨todo, htodo, a, ha, rfl⟩ := howes
    exact (hi.tasks i todo htodo step ha).2.2 e

/-- **Delivery without gaps**, once and in order, if no listing finds a batch stored above
one that the consumer has not passed and that is still on its way.  Between two fetches
everything stored from the start to the position has been delivered and what is on its way lies
ahead (`Caught`); during a fetch what it found and asks for has no gap (`Window`). -/
theorem delivered_without_gaps
    (h : (system cfg).Reach (fun p l => allowed p.1 l = true) (opened topics, {}) p) :
    Delivered p :=
  Inv.delivered (h.invariant inv_opened fun _ hi hok hs => hi.step hok hs)

end Runs

/-! ### Two batches and a consumer -/

/-- A batch of three records. -/
def batch (n : Nat) : Batch := ⟨0, 2, 0, -1, -1, -1, .client n⟩

def produce (n : Nat) : EngineLabel := .spawn (.produce ⟨none, Schedule.partition, batch n⟩)

def consume : EngineLabel := .spawn (.consume Schedule.partition .readUncommitted 0)

/-- A fetch that returns `n` batches; then the consumer goes on. -/
def fetch (i n : Nat) : List EngineLabel :=
  Schedule.turns i (4 + n) ++ [.run i { again := true }]

/-- What was accepted, and that the consumer of the third task is between two fetches, past
both batches, and has been given `delivered`. -/
def given (accepted : List (Topition × Int × Batch)) (delivered : List (Int × Batch))
    (p : EngineWorld × History) : Bool :=
  decide (p.2.accepted = accepted) &&
    match (p.1.tasks[2]? : Option (List Section)) with
    | some [.fetch (.stage k)] => decide (k.topition = Schedule.partition ∧ k.start = 0 ∧
        k.position = 6 ∧ k.delivered = delivered)
    | _ => false

theorem given_iff {accepted : List (Topition × Int × Batch)} {delivered : List (Int × Batch)}
    (h : given accepted delivered p = true) :
    p.2.accepted = accepted ∧ ∃ k, Pending p.1 (.fetch (.stage k)) ∧
      k.topition = Schedule.partition ∧ k.start = 0 ∧ k.position = 6 ∧ k.delivered = delivered := by
  obtain ⟨hacc, hk⟩ := Bool.and_eq_true_iff.1 h
  refine ⟨of_decide_eq_true hacc, ?_⟩
  split at hk
  · next k htask =>
    exact ⟨k, ⟨_, mem_of_getElem? htask, mem_singleton.2 rfl⟩, of_decide_eq_true hk⟩
  · cases hk

/-- The batches are stored one after the other, and the consumer comes last. -/
def inTurn : List EngineLabel :=
  produce 1 :: Schedule.turns 0 3 ++ produce 2 :: Schedule.turns 1 3 ++ consume :: fetch 2 2

theorem delivered_without_gaps_inTurn : ∃ p,
    (system {}).Reach (fun p l => allowed p.1 l = true) (Schedule.store, {}) p ∧
      given [(Schedule.partition, 0, batch 1), (Schedule.partition, 3, batch 2)]
        [(0, batch 1), (3, batch 2)] p = true ∧ Delivered p := by
  exact (exists_reach inTurn (by decide +kernel)).imp
    fun p h => ⟨h.1, h.2, delivered_without_gaps h.1⟩

/-- The second batch is stored first, the consumer reads it, and then the first one is
stored. -/
def outOfTurn : List EngineLabel :=
  produce 1 :: Schedule.turns 0 2 ++ produce 2 :: Schedule.turns 1 3 ++ consume :: fetch 2 1 ++
    Schedule.turns 0 1

/-- The consumer has passed a batch that was accepted, and has not been given it. -/
theorem late_put_is_skipped : ∃ p,
    (system {}).Reach (fun _ l => sized l = true) (Schedule.store, {}) p ∧
      given [(Schedule.partition, 3, batch 2), (Schedule.partition, 0, batch 1)]
        [(3, batch 2)] p = true ∧ ¬ Delivered p := by
  refine (exists_reach outOfTurn (by decide +kernel)).imp
    fun p h => ⟨h.1, h.2, fun hdelivered => ?_⟩
  obtain ⟨hacc, k, hk, htp, hstart, hpos, hd⟩ := given_iff h.2
  have hstored : (p.1.shared.log Schedule.partition)[(0 : Int)]? = some (batch 1) :=
    hdelivered.stored (Schedule.partition, 0, batch 1) (by simp [hacc])
  have hexact : k.delivered = expected p.1.shared k := hdelivered.exact _ hk
  have hmem : ((0, batch 1) : Int × Batch) ∈ k.delivered := by
    rw [hexact, expected, List.mem_filter, mem_toList_iff_getElem?_eq_some, htp]
    exact ⟨hstored, by rw [hstart, hpos]; decide⟩
  rw [hd] at hmem
  revert hmem
  decide

end Delivery

end Tansu.Dynostore.Engine
