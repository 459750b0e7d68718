import Tansu.Lib.Lists
import Tansu.Nvme.Logs
import Tansu.Nvme.Scan

/-!
# A recovered partition accepts appends

The first append after a boot creates a segment named by the recovered next
offset, and recovery derives that offset from the frames it finds.  A file that
begins with a complete frame lies below it; a file in which the scan finds none
can carry exactly its name.
-/

namespace Tansu.Nvme

open Std Tansu.Lib Machine List Option ExtTreeMap Produce System

namespace Reopen

/-- Every request is allowed; each batch covers at least one offset. -/
def sized (_ : EngineWorld) : EngineLabel → Bool
  | .spawn r => r.sized
  | _ => true

/-- Every segment file begins with a frame that the crash left whole, and lies where
recovery looks for it. -/
def complete (disk : Disk) : Bool :=
  disk.dirs.toList.all fun (tp, dir) =>
    dir.toList.all fun (_, file) => tp.recognised && !file.frames.isEmpty

/-- No segment file of a partition has the name of the next one. -/
def Accepts (r : Recovered) : Prop :=
  ∀ (tp : Topition) (inner : PartitionInner) (dir : SegmentDir), r.partitions[tp]? = some inner →
    r.dirs[tp]? = some dir → inner.nextOffset ∉ dir

variable {cfg : Config} {c : Choice} {s s' : Engine} {a : Action} {next : List Action} {e : Error}
  {w w' : EngineWorld} {l : EngineLabel} {tp : Topition} {disk : Disk} {r : Recovered} {cut : Cut}
  {call : ProduceCall} {attributes : BatchAttribute}

/-! ## Names of segments -/

/-- A frame that the scan accepts in a segment of this name. -/
structure Framed (base : Int) (f : SegmentFrame) : Prop where
  above : base ≤ f.baseOffset
  sized : 0 ≤ f.batch.lastOffsetDelta
  parses : f.Parses

/-- A writer is not ahead of its partition, and frames are not below their segment. -/
structure Named (s : Engine) : Prop where
  writer : ∀ (tp : Topition) (inner : PartitionInner) (w : SegmentWriter),
    s.partitions[tp]? = some inner → inner.writer = some w → w.baseOffset ≤ inner.nextOffset
  frames : ∀ tp base file, s.file? tp base = some file → ∀ f ∈ file.frames, Framed base f

theorem Named.target (hn : Named s) {w : SegmentWriter}
    (hw : (Produce.target s call).writer = some w) :
    w.baseOffset ≤ (Produce.target s call).nextOffset := by
  unfold Produce.target at hw ⊢
  cases hp : s.partitions[call.topition]? with
  | none =>
    rw [hp] at hw
    cases hw
  | some inner =>
    rw [hp] at hw
    exact hn.writer _ inner w hp hw

/-- The segment that an append uses has a name below the offset of the batch. -/
theorem Named.segment (hn : Named s) {w : SegmentWriter} {file : Option SegmentFile}
    (h : Produce.Segment s call w file) :
    w.baseOffset ≤ (Produce.target s call).nextOffset ∧
      ∀ file', file = some file' → ∀ f ∈ file'.frames, Framed w.baseOffset f := by
  cases h with
  | found hw => exact ⟨hn.target hw, fun file' hf => hn.frames _ _ file' hf⟩
  | created _ =>
    refine ⟨Int.le_refl _, fun file' hf f hmem => ?_⟩
    cases hf
    cases hmem

/-! ## Every section -/

theorem Named.append (hn : Named s) (h : Produce.append cfg s c call attributes = .ok s' next)
    (hd : 0 ≤ call.batch.lastOffsetDelta) (hparse : ∃ attributes,
      BatchAttribute.tryFrom call.batch.attributes = .ok attributes) : Named s' := by
  obtain ⟨w, file, hseg, hfile, hparts, -⟩ := append_files h
  obtain ⟨hbase, hframes⟩ := hn.segment hseg
  constructor
  · intro tp inner w' hp hw'
    rw [hparts] at hp
    split at hp
    · cases hp
      rw [indexed_writer] at hw'
      cases hw'
      rw [indexed_nextOffset]
      simp only [Produce.endOffset]
      omega
    · exact hn.writer tp inner w' hp hw'
  · intro tp base file' hf f hmem
    rw [hfile] at hf
    split at hf
    · next hhere =>
      obtain ⟨-, rfl⟩ := hhere
      obtain ⟨old, rfl, rfl⟩ := map_eq_some_iff.1 hf
      rcases mem_append.1 hmem with hmem | hmem
      · exact hframes old rfl f hmem
      · rw [mem_singleton.1 hmem]
        exact ⟨hbase, hd, hparse⟩
    · exact hn.frames tp base file' hf f hmem

theorem Named.append_err (hn : Named s) (h : Produce.append cfg s c call attributes = .err s' e)
    (hd : 0 ≤ call.batch.lastOffsetDelta) : Named s' := by
  rcases append_err_files h with rfl | ⟨writer, hparts, hfiles⟩
  · exact hn
  constructor
  · intro tp inner w' hp hw'
    rw [hparts] at hp
    split at hp
    · cases hp
      rcases hfiles with ⟨rfl, -⟩ | ⟨w, file, rfl, hseg, -⟩
      · cases hw'
      · cases hw'
        have hbase := (hn.segment hseg).1
        simp only [Produce.endOffset]
        omega
    · exact hn.writer tp inner w' hp hw'
  · intro tp base file' hf f hmem
    rcases hfiles with ⟨-, hfile⟩ | ⟨w, file, -, hseg, hfile⟩
    · rw [hfile] at hf
      exact hn.frames tp base file' hf f hmem
    · rw [hfile] at hf
      split at hf
      · next hhere =>
        obtain ⟨-, rfl⟩ := hhere
        obtain ⟨old, hold, rfl⟩ := map_eq_some_iff.1 hf
        rw [SegmentFile.tear_frames] at hmem
        exact (hn.segment hseg).2 old hold f hmem
      · exact hn.frames tp base file' hf f hmem

theorem Named.kept (hn : Named s) (hlogs : ∀ tp, s.KeepsLogs s' tp)
    (hfiles : ∀ tp base file, s'.file? tp base = some file →
      ∃ old, s.file? tp base = some old ∧ file.frames = old.frames) : Named s' := by
  constructor
  · intro tp inner' w hp hw
    rcases hlogs tp inner' hp with ⟨inner, hinner, hkept⟩ | ⟨-, rfl⟩
    · rcases hkept.writer with hsame | hnone
      · rw [hsame] at hw
        rw [hkept.nextOffset]
        exact hn.writer tp inner w hinner hw
      · rw [hnone] at hw
        cases hw
    · cases hw
  · intro tp base file hf f hmem
    obtain ⟨old, hold, hframes⟩ := hfiles tp base file hf
    exact hn.frames tp base old hold f (hframes ▸ hmem)

theorem Named.run (hn : Named s) (ha : a.Sound) (h : a.run cfg s c = .ok s' next) : Named s' := by
  obtain ⟨call, attributes, rfl⟩ | hne := a.append_or
  · exact hn.append h (ha.sized call rfl) ⟨attributes, ha.parsed call attributes rfl rfl⟩
  · exact hn.kept (fun tp => run_keepsLogs h fun call attributes heq => absurd heq (hne _ _))
      fun tp base file hf => ⟨file, run_file?_inv hne h hf, rfl⟩

theorem Named.run_err (hn : Named s) (ha : a.Sound) (h : a.run cfg s c = .err s' e) : Named s' := by
  obtain ⟨call, attributes, rfl⟩ | hne := a.append_or
  · exact hn.append_err h (ha.sized call rfl)
  · refine hn.kept (fun tp => run_err_keepsLogs h fun call attributes heq => absurd heq (hne _ _))
      fun tp base file hf => ⟨file, ?_, rfl⟩
    rw [← run_err_file? (fun call attributes heq => absurd heq (hne _ _)) h, hf]

/-! ## Every life -/

abbrev Inv : EngineWorld → Prop := Holds Named fun _ a => a.Sound

theorem Inv.step (hi : Inv w) (hok : sized w l) (h : (machine cfg).step w l = some w') :
    Inv w' := by
  refine Holds.step hi h ?_ ?_ ?_ ?_
  · rintro r rfl a ha
    exact Request.start_sound hok a ha
  · intro ev s hl he
    have hparts : s.partitions = w.shared.partitions := (env_untouched he).2
    refine ⟨hi.1.kept (fun tp => .of_eq hparts) fun tp base file hf => ?_, fun b _ hb => hb⟩
    obtain ⟨old, hold, hframes, -⟩ := env_file? he hf
    exact ⟨old, hold, hframes⟩
  · intro i c a rest s next hl hat ha he
    exact ⟨hi.1.run ha (exec_ok he), run_sound ha (exec_ok he), fun b _ _ hb => hb⟩
  · intro i c a rest s err hl hat ha he
    exact ⟨hi.1.run_err ha (exec_err he), fun b _ hb => hb⟩

theorem inv_opened : Inv opened := by
  refine ⟨⟨fun tp inner w hp => ?_, fun tp base file hf => ?_⟩, fun a ha => ?_⟩
  · simp [opened, Engine.opened] at hp
  · simp [opened, Engine.opened, Engine.file?] at hf
  · obtain ⟨todo, hmem, -⟩ := ha
    cases hmem

/-! ## Crash and recovery -/

variable {dir : SegmentDir} {base : Int}

theorem crash_file? {file : SegmentFile} (hdir : (s.crash cut).dirs[tp]? = some dir)
    (hfile : dir[base]? = some file) :
    ∃ old, s.file? tp base = some old ∧ ∀ f ∈ file.frames, f ∈ old.frames := by
  obtain ⟨dir₀, hdir₀, rfl⟩ := getElem?_crash_dirs hdir
  rw [ExtTreeMap.getElem?_map] at hfile
  obtain ⟨old, hold, rfl⟩ := map_eq_some_iff.1 hfile
  refine ⟨old, by rw [Engine.file?, hdir₀, bind_some, hold], fun f hf => ?_⟩
  exact old.scannable_subset (List.mem_filter.1 hf).1

theorem Named.framed (hn : Named s) {f : SegmentFrame} (hdir : (s.crash cut).dirs[tp]? = some dir)
    (hf : (base, f) ∈ SegmentDir.frames dir) : Framed base f := by
  obtain ⟨file, hfile, hmem⟩ := SegmentDir.mem_frames.1 hf
  obtain ⟨old, hold, hsub⟩ := crash_file? hdir hfile
  exact hn.frames tp base old hold f (hsub f hmem)

theorem Named.parses (hn : Named s) : (s.crash cut).Parses :=
  fun _ _ hdir _ hf => (hn.framed hdir hf).parses

theorem Inv.restart (hi : Inv w) (h : recover (w.shared.crash cut) = .ok r) :
    Inv (rebooted (w.shared.crash cut) r) := by
  have hfound := found h
  refine ⟨⟨fun tp inner writer hp hw => ?_, fun tp base file hfile f hmem => ?_⟩, fun a ha => ?_⟩
  · obtain ⟨_, _, -, rfl, hnone⟩ := hfound.partitions tp inner hp
    rw [show _ = none from hnone] at hw
    cases hw
  · obtain ⟨dir, hdir, hfile⟩ := hfound.file? hfile
    exact hi.1.framed hdir (SegmentDir.mem_frames.2 ⟨file, hfile, hmem⟩)
  · obtain ⟨todo, hmem, ha⟩ := ha
    rw [mem_singleton.1 hmem] at ha
    rcases mem_append.1 ha with ha | ha
    · obtain ⟨entry, -, rfl⟩ := List.mem_map.1 ha
      exact .of_call rfl
    · rw [mem_singleton.1 ha]
      exact .of_call rfl

theorem lives_inv (h : Lives cfg (fun w l => sized w l = true) w) : Inv w :=
  h.invariant inv_opened Inv.step fun _ hi hr => hi.restart hr

/-- **Boot reads what a crash leaves**, however often the engine crashed before and
whatever its failed writes left: every frame that a scan can reach was appended by a
produce, whose attributes were parsed before. -/
theorem recover_succeeds (h : Lives cfg (fun w l => sized w l = true) w) (cut : Cut) :
    ∃ r, recover (w.shared.crash cut) = .ok r :=
  ⟨_, recover_eq (lives_inv h).1.parses.scans⟩

/-- A batch of three records for the first partition of a topic. -/
def threeRecords : ProduceCall := ⟨none, ⟨"p", 0⟩, ⟨0, 2, 0, -1, -1, -1, .client 10⟩⟩

/-- The batch is appended to a new segment; nothing is durable yet. -/
def appended : List EngineLabel :=
  [.spawn (.produce threeRecords), .run 0 {}, .run 0 {}, .run 0 {}]

/-- One batch is acknowledged, and a second one is appended. -/
def firstLife : List EngineLabel :=
  List.flatten [appended, [.env (.syncSegment ⟨"p", 0⟩ 0 1000), .run 0 {}],
    [.spawn (.produce threeRecords), .run 1 {}, .run 1 {}, .run 1 {}]]

/-- Beside the boot one batch is appended, a write fails behind its seventh byte, and a
third batch is appended behind what it left. -/
def secondLife : List EngineLabel :=
  List.flatten [
    [.spawn (.produce threeRecords), .run 1 {}, .run 1 {}, .run 1 {}],
    [.spawn (.produce threeRecords), .run 2 {}, .run 2 {},
      .run 2 { fault := some .write, kept := 7 }],
    [.spawn (.produce threeRecords), .run 3 {}, .run 3 {}, .run 3 {}]]

/-- A crash inside the second frame of every segment. -/
def inside : Cut := { segments := fun _ _ => threeRecords.batch.framedLen + 5 }

theorem recover_succeeds_twice : ∃ w r w', Lives {} (fun w l => sized w l = true) w ∧
    recover (w.shared.crash inside) = .ok r ∧
    Lives {} (fun w l => sized w l = true) w' ∧
    (w'.shared.file? ⟨"p", 0⟩ 0).map (·.frames.map (·.baseOffset)) = some [0] ∧
    (w'.shared.file? ⟨"p", 0⟩ 3).map (fun file => (file.frames.map (·.baseOffset), file.torn)) =
      some ([3, 9], some 1) ∧
    ∃ r', recover (w'.shared.crash inside) = .ok r' := by
  have h : ((machine {}).system.trace (fun w l => sized w l = true) opened firstLife).any (fun w =>
      (recover (w.shared.crash inside)).toOption.any fun r =>
        ((machine {}).system.trace (fun w l => sized w l = true)
          (rebooted (w.shared.crash inside) r) secondLife).any fun w' =>
          decide ((w'.shared.file? ⟨"p", 0⟩ 0).map (·.frames.map (·.baseOffset)) = some [0] ∧
            (w'.shared.file? ⟨"p", 0⟩ 3).map
              (fun file => (file.frames.map (·.baseOffset), file.torn)) =
              some ([3, 9], some 1))) = true := by
    decide +kernel
  obtain ⟨w, hw, hb⟩ := reach_of_any h
  obtain ⟨r, hr, hb⟩ := (Option.any_eq_true _ _).1 hb
  obtain ⟨w', hw', hb⟩ := reach_of_any hb
  obtain ⟨hfirst, hsecond⟩ := of_decide_eq_true hb
  have hr : recover (w.shared.crash inside) = .ok r := toOption_eq_some.1 hr
  have hl := Lives.opened.reach hw
  have hl' := (hl.restart inside hr).reach hw'
  exact ⟨w, r, w', hl, hr, hl', hfirst, hsecond, recover_succeeds hl' inside⟩

/-! ## The first append -/

theorem mem_complete (h : complete disk) {file : SegmentFile} (hdir : disk.dirs[tp]? = some dir)
    (hfile : dir[base]? = some file) : tp.recognised ∧ ∃ f, f ∈ file.frames := by
  have hdirs := List.all_eq_true.1 h _ (mem_toList_iff_getElem?_eq_some.2 hdir)
  have hfiles := List.all_eq_true.1 hdirs _ (mem_toList_iff_getElem?_eq_some.2 hfile)
  obtain ⟨htp, hne⟩ := Bool.and_eq_true_iff.1 hfiles
  refine ⟨htp, exists_mem_of_ne_nil _ ?_⟩
  simpa using hne

/-- **Recovery leaves the next name free**: a file that has it would hold a frame
at or above it, which the next offset is past. -/
theorem accepts (hn : Named s) (hc : complete (s.crash cut))
    (hr : recover (s.crash cut) = .ok r) : Accepts r := by
  have hfound := found hr
  intro tp inner dir hp hdir hmem
  obtain ⟨inner₀, _, hp₀, heq, -⟩ := hfound.partitions tp inner hp
  have hnext : inner.nextOffset = inner₀.nextOffset := by rw [heq]
  rcases hfound.dirs tp dir hdir with hdir | rfl
  · have hfile : dir[inner.nextOffset]? = some _ := getElem?_eq_some_getElem hmem
    obtain ⟨htp, f, hf⟩ := mem_complete hc hdir hfile
    have hframe := SegmentDir.mem_frames.2 ⟨_, hfile, hf⟩
    obtain ⟨habove, hsized, -⟩ := hn.framed hdir hframe
    rw [Disk.getElem?_partitions hdir htp] at hp₀
    cases hp₀
    obtain ⟨-, -, -, hscanned⟩ := SegmentDir.recovered_spec ((s.crash cut).skeleton tp)
      fun entry he => (hn.framed hdir he).parses
    have hlt : f.lastOffset < _ := hscanned _ hframe
    have hlast : f.lastOffset = f.baseOffset + f.batch.lastOffsetDelta := rfl
    omega
  · simp at hmem

/-- An append succeeds if the name of the next segment is free. -/
theorem append_accepted (hlocked : s.partitionsLocked = false)
    (hdirs : s.partitions[call.topition]?.isSome → s.dirs[call.topition]?.isSome)
    (hfree : s.file? call.topition (Produce.target s call).nextOffset = none)
    (hfault : c.fault = none) :
    ∃ s' next, Produce.append cfg s c call attributes = .ok s' next := by
  cases h : Produce.append cfg s c call attributes with
  | ok s' next => exact ⟨s', next, rfl⟩
  | err s' e =>
    rcases append_err_cause h with hf | ⟨hp, hd⟩ | ⟨file, hf⟩
    · exact absurd hfault hf
    · have hsome := hdirs hp
      rw [hd] at hsome
      cases hsome
    · rw [hfree] at hf
      cases hf
  | blocked =>
    have htrue := append_blocked h
    rw [hlocked] at htrue
    cases htrue

/-- A partition that recovery does not know has no files. -/
theorem unknown_file? (hf : Found disk r) (hc : complete disk)
    (h : r.partitions[tp]? = none) (base : Int) :
    (Engine.ofRecovered disk r).file? tp base = none := by
  by_contra hne
  obtain ⟨file, hfile⟩ := ne_none_iff_exists'.1 hne
  obtain ⟨dir, hdir, hfile⟩ := hf.file? hfile
  obtain ⟨-, _, hknown⟩ :=
    hf.known tp _ (Disk.getElem?_partitions hdir (mem_complete hc hdir hfile).1)
  rw [h] at hknown
  cases hknown

theorem recovered_append (hf : Found disk r) (hc : complete disk) (ha : Accepts r)
    (hfault : c.fault = none) : ∃ s' next,
      Produce.append cfg (Engine.ofRecovered disk r) c call attributes = .ok s' next := by
  cases hp : r.partitions[call.topition]? with
  | none =>
    have htarget : (Engine.ofRecovered disk r).partitions[call.topition]? = none := hp
    refine Reopen.append_accepted rfl ?_ (unknown_file? hf hc hp _) hfault
    rw [htarget]
    nofun
  | some inner =>
    have htarget : Produce.target (Engine.ofRecovered disk r) call = inner := by
      rw [Produce.target, show (Engine.ofRecovered disk r).partitions[call.topition]? = _ from hp]
      rfl
    obtain ⟨inner₀, _, hp₀, -, -⟩ := hf.partitions _ inner hp
    obtain ⟨dir, hdir⟩ := isSome_iff_exists.1 (hf.known _ inner₀ hp₀).1
    have hfree := ha _ inner dir hp hdir
    refine Reopen.append_accepted rfl (fun _ => ?_) ?_ hfault
    · exact isSome_of_eq_some hdir
    · rw [htarget, Engine.file?, show (Engine.ofRecovered disk r).dirs[call.topition]? =
        _ from hdir]
      exact ExtTreeMap.getElem?_eq_none hfree

/-- **A recovered partition accepts appends** if every segment file begins with a whole
frame and lies where recovery looks for it.  That frame is at or above the name of its
file, and the recovered next offset is past it; so the name of the next segment is free.
What failed writes have left behind the first frame of a file does not matter. -/
theorem recovered_accepts_appends (h : Lives cfg (fun w l => sized w l = true) w)
    (hc : complete (w.shared.crash cut)) :
    ∃ r, recover (w.shared.crash cut) = .ok r ∧ Accepts r ∧
      ∀ c call attributes, c.fault = none → ∃ s' next, Produce.append cfg
        (Engine.ofRecovered (w.shared.crash cut) r) c call attributes = .ok s' next := by
  have hi := lives_inv h
  have hparses : (w.shared.crash cut).Parses := hi.1.parses
  have hr := recover_eq hparses.scans
  have hfound := found hr
  have haccepts := accepts hi.1 hc hr
  refine ⟨_, hr, haccepts, fun c call attributes hfault => ?_⟩
  exact recovered_append hfound hc haccepts hfault

/-- The attributes of the batch. -/
def plain : BatchAttribute := ⟨.none, .createTime, false, false, false⟩

theorem recovered_accepts_appends_synced : ∃ w,
    Lives {} (fun w l => sized w l = true) w ∧ complete (w.shared.crash {}) ∧
      w.shared.file? ⟨"p", 0⟩ 0 ≠ none ∧
      ∃ r, recover (w.shared.crash {}) = .ok r ∧ Accepts r ∧
        ∀ c call attributes, c.fault = none → ∃ s' next, Produce.append {}
          (Engine.ofRecovered (w.shared.crash {}) r) c call attributes = .ok s' next := by
  have h : ((machine {}).system.trace (fun w l => sized w l = true) opened
      (appended ++ [.env (.syncSegment ⟨"p", 0⟩ 0 1000)])).any (fun w =>
        complete (w.shared.crash {}) && (w.shared.file? ⟨"p", 0⟩ 0).isSome) = true := by
    decide +kernel
  obtain ⟨w, hw, hb⟩ := reach_of_any h
  obtain ⟨hc, hfile⟩ := Bool.and_eq_true_iff.1 hb
  have hl := Lives.opened.reach hw
  exact ⟨w, hl, hc, isSome_iff_ne_none.1 hfile, recovered_accepts_appends hl hc⟩

/-! ### A segment that lost its only frame -/

/-- The next append finds a file with the name of its segment. -/
def collides (disk : Disk) (r : Recovered) : Bool :=
  (r.partitions[(⟨"p", 0⟩ : Topition)]?.any fun inner =>
    r.dirs[(⟨"p", 0⟩ : Topition)]?.any fun dir => dir.contains inner.nextOffset) &&
  match Produce.append {} (Engine.ofRecovered disk r) {} threeRecords plain with
  | .err _ (.message m) => m == "nvme segment create"
  | _ => false

/-- A crash before the first frame of a segment is durable leaves an empty file,
and the first append after it fails on that file. -/
theorem torn_segment_refuses_append : ∃ w r, Lives {} (fun w l => sized w l = true) w ∧
    recover (w.shared.crash {}) = .ok r ∧ ¬ Accepts r ∧
      ∃ s', Produce.append {} (Engine.ofRecovered (w.shared.crash {}) r) {} threeRecords plain =
        .err s' (.message "nvme segment create") := by
  have h : ((machine {}).system.trace (fun w l => sized w l = true) opened appended).any
      (fun w => (recover (w.shared.crash {})).toOption.any
        (collides (w.shared.crash {}))) = true := by
    decide +kernel
  obtain ⟨w, hw, hb⟩ := reach_of_any h
  obtain ⟨r, hr, hb⟩ := (Option.any_eq_true _ _).1 hb
  obtain ⟨hdir, happ⟩ := Bool.and_eq_true_iff.1 hb
  refine ⟨w, r, Lives.opened.reach hw, toOption_eq_some.1 hr, fun ha => ?_, ?_⟩
  · obtain ⟨inner, hp, hdir⟩ := (Option.any_eq_true _ _).1 hdir
    obtain ⟨dir, hdir, hmem⟩ := (Option.any_eq_true _ _).1 hdir
    exact ha _ inner dir hp hdir (ExtTreeMap.contains_iff_mem.1 hmem)
  · split at happ
    · next s' m heq =>
      rw [beq_iff_eq] at happ
      subst happ
      exact ⟨s', heq⟩
    · cases happ

end Reopen

end Tansu.Nvme
