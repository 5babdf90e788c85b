import NightlyBackup.Proofs.Confining
import NightlyBackup.Proofs.Turns

/-!
Whatever is done about a host is confined to it: its requests, the packets that it sends, its
faults and its silence, and the end of each of its disks.
-/

namespace NightlyBackup

open Night

namespace DiskPlan

theorem question_mapLevels (p : DiskPlan) {f : LevelEstimate → LevelEstimate}
    (hf : ∀ e, (f e).level = e.level) :
    ({ p with levels := p.levels.map f } : DiskPlan).question = p.question := by
  simp only [question, List.map_map, Function.comp_def, hf]

/-- What a host tells about a disk does not change what is asked about it. -/
theorem Retold.question {p q : DiskPlan} (h : p.Retold q) : q.question = p.question := by
  have huntold : ∀ p : DiskPlan, p.untold.question = p.question := fun p =>
    p.question_mapLevels fun _ => rfl
  rw [← huntold q, h.untold, huntold]

theorem question_fillExpected (p : DiskPlan) (tapeLength : Nat) :
    (p.fillExpected tapeLength).question = p.question :=
  p.question_mapLevels fun _ => rfl

theorem question_expirePending (p : DiskPlan) : p.expirePending.question = p.question := by
  refine p.question_mapLevels fun e => ?_
  split <;> rfl

end DiskPlan

namespace Planning

theorem question_noteUnasked (p : DiskPlan) : (noteUnasked p).question = p.question := by
  unfold noteUnasked
  split <;> rfl

variable {n m k : Night} {h id : Nat}

/-! ## Requests -/

theorem confined_expectSizes (hid : (n.plan id).host = h) : Confined n h (expectSizes id) := by
  refine .look (fun m _ => ?_) fun m k hm hk hs => ?_
  · split
    · refine .bind (.setPlan hid fun p => p.question_fillExpected _) fun _ =>
        .bind (.reckon _) fun _ => ?_
      split
      · exact .bind (.setPlan hid fun _ => rfl) fun _ => .moveTo _ _ hid
      · exact .pure ()
    · exact .pure ()
  · have he : awaitsExpected k id = awaitsExpected m id := by
      simp only [awaitsExpected, hs.plan hid, hs.queueOf hm hk hid]
    rw [he, hs.plan hid, hs.media]

theorem confined_announceSource (features : FeatureSet) (hid : (n.plan id).host = h) :
    Confined n h (announceSource id features) := by
  refine .look (fun m _ => ?_) fun m k hm hk hs => ?_
  · dsimp only
    split
    · exact .say _
    · exact .pure ()
  · rw [hs.plan hid, hm.hostName hk]

theorem confined_askDisk (features : FeatureSet) (hid : (n.plan id).host = h) :
    Confined n h (askDisk features id) := by
  refine .look (fun m _ => ?_) fun m k hm hk hs => ?_
  · split
    · exact .pure _
    · refine .bind (.setPlan hid fun _ => rfl) fun _ =>
        .bind (confined_announceSource features hid) fun _ => .bind (.getPlan hid) fun p => ?_
      dsimp only
      split
      · split
        · exact .bind (.setPlan hid question_noteUnasked) fun _ =>
            .bind (.moveTo _ _ hid) fun _ => .pure _
        · exact .bind (.setPlan hid fun _ => rfl) fun _ =>
            .bind (.failFrom _ _ hid) fun _ => .pure _
      · split
        · exact .bind (.moveTo _ _ hid) fun _ =>
            .bind (.setPlan hid fun _ => rfl) fun _ => .pure _
        · exact .bind (.setPlan hid fun _ => rfl) fun _ => .pure _
  · have he : isStartable k id = isStartable m id := by
      simp only [isStartable, hs.plan hid, hs.queueOf hm hk hid]
    rw [he]

theorem confined_awaitAnswer (hid : (n.plan id).host = h) : Confined n h (awaitAnswer id) := by
  refine .look (fun m _ => ?_) fun m k hm hk hs => ?_
  · split
    · exact .bind (.setPlan hid fun _ => rfl) fun _ => .moveTo _ _ hid
    · exact .pure ()
  · rw [hs.plan hid, hs.queueOf hm hk hid]

theorem confined_requestSizes (hn : n.Hosted) (features : FeatureSet) :
    Confined n h (requestSizes h features) := by
  refine .look (fun m hm => ?_) fun m k hm hk hs => ?_
  · refine .bind (.mapM fun id hid => confined_askDisk features (hm.owner hn hid))
      fun lines => ?_
    dsimp only
    split
    · exact .bind (.setHost fun _ => ⟨rfl, rfl⟩) fun _ => .pure _
    · exact .bind (.forM fun id hid => confined_awaitAnswer (hm.owner hn hid)) fun _ =>
        .bind (.setHost fun _ => ⟨rfl, rfl⟩) fun _ => .pure _
  · have he : requestHead k h features = requestHead m h features := by
      unfold requestHead
      rw [hs.host, hs.settings]
    rw [he, hs.host, hs.settings]

theorem confined_request (hn : n.Hosted) : Confined n h (request h) := by
  refine .look (fun m hm => ?_) fun m k _ _ hs => by rw [hs.host]
  split
  · exact .pure _
  · refine .look (fun m hm => ?_) fun m k _ _ hs => by rw [hs.host]
    refine .bind (.forM fun id hid => confined_expectSizes (hm.owner hn hid)) fun _ => ?_
    refine .look (fun m hm => ?_) fun m k hm hk hs => ?_
    · split
      · exact .bind (.setHost fun _ => ⟨rfl, rfl⟩) fun _ => .pure _
      · split
        · exact .bind (.setHost fun _ => ⟨rfl, rfl⟩) fun _ => .pure _
        · exact confined_requestSizes hn _
    · have hprobe : probe k h = probe m h := by
        unfold probe
        rw [hs.host, hs.settings]
      have hall : ((m.host h).disks.all fun id => k.queues.queueOf id ≠ some .start) =
          (m.host h).disks.all fun id => m.queues.queueOf id ≠ some .start :=
        Bool.eq_iff_iff.mpr (by
          simp only [List.all_eq_true]
          exact forall₂_congr fun id hid => by
            rw [hs.queueOf hm hk (hm.owner hn hid)])
      rw [hs.host, hall, hprobe]

/-! ## Replies and faults -/

theorem confined_resolveFailed (words : String) (hid : (n.plan id).host = h) :
    Confined n h (resolveFailed words id) := by
  refine .look (fun m _ => ?_) fun m k hm hk hs => by rw [hs.queueOf hm hk hid]
  split
  · split
    · refine .bind (.setPlan hid DiskPlan.question_expirePending) fun _ =>
        .bind (.getPlan hid) fun p => ?_
      split
      · exact .bind (.setPlan hid fun _ => rfl) fun _ =>
          .bind (.moveTo _ _ hid) fun _ => .pure _
      · exact .bind (.failFrom _ _ hid) fun _ => .pure _
    · exact .pure _
  · exact .pure _

theorem confined_hostFailed (hn : n.Hosted) (words : String) :
    Confined n h (hostFailed h words) := by
  refine .look (fun m hm => ?_) fun m k _ _ hs => by rw [hs.host]
  refine .bind (.mapM fun id hid => confined_resolveFailed words (hm.owner hn hid))
    fun wasOpen => ?_
  split
  · exact .bind (.say _) fun _ => .setHost fun _ => ⟨rfl, rfl⟩
  · exact .setHost fun _ => ⟨rfl, rfl⟩

theorem confined_takeDiskLine (hn : n.Hosted) (disk : String) (level : Int)
    {enter : DiskPlan → DiskPlan} (he : ∀ p : DiskPlan, p.Retold (enter p)) :
    Confined n h (takeDiskLine h disk level enter) := by
  refine .look (fun m hm => ?_) fun m k hm hk hs => ?_
  · split
    · exact .pure _
    · rename_i id hfound
      have hid := hm.owner hn (List.mem_of_find?_eq_some hfound)
      refine .bind (.setPlan hid fun p => (he p).question) fun _ => ?_
      split
      · exact .bind (.setPlan hid fun _ => rfl) fun _ => .pure _
      · exact .pure _
  · have hname : ∀ id, k.diskName id = m.diskName id := fun id => hm.diskName hk
    simp only [hs.host, hname]
    split
    · rfl
    · rename_i id hfound
      rw [hs.plan (hm.owner hn (List.mem_of_find?_eq_some hfound))]

theorem confined_takeLine (hn : n.Hosted) (kind : PacketKind) (line : ReplyLine) :
    Confined n h (takeLine h kind line) := by
  refine .look (fun m _ => ?_) fun m k _ _ hs => by rw [hs.host]
  cases line with
  | options hex =>
    cases hex with
    | none => exact .pure _
    | some hex =>
      dsimp only
      split
      · exact .bind (.setHost fun _ => ⟨rfl, rfl⟩) fun _ => .pure _
      · exact .pure _
  | hostMessage severity message =>
    dsimp only
    split
    · exact .pure _
    · split <;> exact .pure _
  | size disk level size =>
    exact .map (confined_takeDiskLine hn disk level fun _ => .takeSize level size)
  | diskMessage disk level message =>
    exact .map (confined_takeDiskLine hn disk level fun _ => .noteMessage kind message)

theorem confined_takeLines (hn : n.Hosted) (kind : PacketKind) (lines : List ReplyLine) :
    Confined n h (takeLines h kind lines) := by
  induction lines with
  | nil => exact .pure _
  | cons line rest ih =>
    refine .bind (confined_takeLine hn kind line) fun words => ?_
    cases words with
    | some words => exact .pure _
    | none => exact ih

theorem confined_settleFrom (kind : PacketKind) (source : QueueName)
    (hid : (n.plan id).host = h) : Confined n h (settleFrom h kind source id) := by
  refine .bind (.getPlan hid) fun p => .bind (.remove _ hid) fun _ => ?_
  split
  · exact .bind (.setPlan hid fun _ => rfl) fun _ => .enqueue _ hid
  · refine .bind (.setPlan hid fun _ => rfl) fun _ =>
      .bind (.setHost fun _ => ⟨rfl, rfl⟩) fun _ => ?_
    split
    · exact .enqueue _ hid
    · refine .look (fun m _ => ?_) fun m k _ _ hs => by rw [hs.host]
      exact .bind (.setPlan hid fun _ => rfl) fun _ => .enqueue _ hid

theorem confined_settleDisk (kind : PacketKind) (hid : (n.plan id).host = h) :
    Confined n h (settleDisk h kind id) := by
  refine .bind (.getPlan hid) fun p => ?_
  split
  · exact confined_settleFrom kind _ hid
  · exact confined_settleFrom kind _ hid
  · exact .pure ()
  · exact .pure ()

theorem confined_onReply (hn : n.Hosted) (packet : Packet) :
    Confined n h (onReply h packet) := by
  refine .bind (.setHost fun _ => ⟨rfl, rfl⟩) fun _ =>
    .look (fun m hm => ?_) fun m k _ _ hs => by rw [hs.host]
  split
  · exact confined_hostFailed hn _
  · refine .bind (confined_takeLines hn _ _) fun words => ?_
    split
    · exact confined_hostFailed hn _
    · refine .bind (.setHost fun _ => ⟨rfl, rfl⟩) fun _ =>
        .look (fun m hm => ?_) fun m k _ _ hs => by rw [hs.host]
      exact .forM fun id hid => confined_settleDisk _ (hm.owner hn hid)

theorem confined_onTransportFault (hn : n.Hosted) (fault : TransportFault) :
    Confined n h (onTransportFault h fault) :=
  .look (fun _ _ => confined_hostFailed hn _) fun m k _ _ hs => by rw [hs.host]

/-! ## The last disks -/

theorem confined_strand (hid : (n.plan id).host = h) : Confined n h (strand id) :=
  .bind (.remove _ hid) fun _ => .bind (.setPlan hid fun _ => rfl) fun _ => .enqueue _ hid

theorem confined_closePartial (hid : (n.plan id).host = h) :
    Confined n h (closePartial id) := by
  refine .bind (.remove _ hid) fun _ => .bind (.getPlan hid) fun p =>
    .look (fun m _ => ?_) fun m k hm hk _ => ?_
  · refine .bind (.setPlan hid DiskPlan.question_expirePending) fun _ =>
      .bind (.forM fun _ _ => .say _) fun _ => ?_
    split
    · exact .enqueue _ hid
    · exact .bind (.setPlan hid fun _ => rfl) fun _ => .enqueue _ hid
  · rw [hm.diskName hk, hm.hostName hk]

theorem confined_closeUnasked (hid : (n.plan id).host = h) : Confined n h (closeUnasked id) :=
  .bind (.remove _ hid) fun _ => .bind (.setPlan hid fun _ => rfl) fun _ => .enqueue _ hid

end Planning

end NightlyBackup
