import NightlyBackup.Proofs.ReplyLines
import NightlyBackup.Proofs.Steps
import NightlyBackup.Proofs.Usable

/-!
What is learned about a disk while sizes are gathered. Its sizes are worked out from its history, or
a line of a reply tells one of them, or they are given up; besides, it is noted how far the exchange
about it has come. Whatever the hosts do, nothing else becomes of a plan; so what each of these
changes keeps is kept until all sizes are gathered.
-/

namespace NightlyBackup

open Night Planning Text

variable {n m k : Night} {id slot h : Nat} {p q : DiskPlan}

namespace DiskPlan

/-- The sizes of a disk, and what they are worked out from. -/
structure Knowledge where
  lastLevel : Option Nat
  history : Option History
  levels : List LevelEstimate

def knowledge (p : DiskPlan) : Knowledge where
  lastLevel := p.lastLevel
  history := p.history
  levels := p.levels

/-- One thing that is learned about a disk, or a note on the exchange about it. The sizes that can
be told are whole numbers of 64 bits. -/
inductive Learning : DiskPlan → DiskPlan → Prop
  | noted {p q : DiskPlan} (same : q.knowledge = p.knowledge) : Learning p q
  | expected (p : DiskPlan) (capacity : Nat) : Learning p (p.fillExpected capacity)
  | expired (p : DiskPlan) : Learning p p.expirePending
  | told (p : DiskPlan) (level : Int) {size : Int} (fits : (WholeRange.signed 64).Holds size) :
    Learning p (p.takeSize level size)

def Learned : DiskPlan → DiskPlan → Prop := Relation.ReflTransGen Learning

namespace Learned

theorem refl (p : DiskPlan) : p.Learned p := Relation.ReflTransGen.refl

theorem trans {r : DiskPlan} (h : p.Learned q) (h' : q.Learned r) : p.Learned r :=
  Relation.ReflTransGen.trans h h'

theorem noted (same : q.knowledge = p.knowledge) : p.Learned q := .single (.noted same)

theorem expected (p : DiskPlan) (capacity : Nat) : p.Learned (p.fillExpected capacity) :=
  .single (.expected p capacity)

theorem expired (p : DiskPlan) : p.Learned p.expirePending := .single (.expired p)

theorem told (p : DiskPlan) (level : Int) {size : Int}
    (fits : (WholeRange.signed 64).Holds size) : p.Learned (p.takeSize level size) :=
  .single (.told p level fits)

theorem keeps {P : DiskPlan → Prop} (hP : ∀ {p q}, Learning p q → P p → P q) (h : p.Learned q)
    (hp : P p) : P q := by
  induction h with
  | refl => exact hp
  | tail _ hlast ih => exact hP hlast ih

end Learned

/-! ## Terms -/

theorem terms_fillExpected (p : DiskPlan) (tapeLength : Nat) :
    (p.fillExpected tapeLength).terms = p.terms := by
  refine terms_map ?_
  exact fun _ => ⟨rfl, rfl⟩

theorem terms_expirePending (p : DiskPlan) : p.expirePending.terms = p.terms := by
  refine terms_map fun e => ?_
  split <;> exact ⟨rfl, rfl⟩

theorem terms_takeSize (p : DiskPlan) (level size : Int) :
    (p.takeSize level size).terms = p.terms := by
  unfold takeSize
  split
  · split
    · split
      · exact terms_setSize _ _
      · split
        · exact terms_setSize _ _
        · rfl
    · rfl
  · rfl

/-- Whatever is learned, the terms stand. -/
theorem Learned.terms (h : p.Learned q) : q.terms = p.terms := by
  refine h.keeps (P := fun q => q.terms = p.terms) (fun {q r} hlearned hq => ?_) rfl
  cases hlearned with
  | noted same =>
    have hlevels : r.levels = q.levels := congrArg Knowledge.levels same
    have hlast : r.lastLevel = q.lastLevel := congrArg Knowledge.lastLevel same
    rw [← hq, DiskPlan.terms, DiskPlan.terms, hlevels, hlast]
  | expected capacity => rw [terms_fillExpected, hq]
  | expired => rw [terms_expirePending, hq]
  | told level => rw [terms_takeSize, hq]

end DiskPlan

def Scope.learning : Scope where
  replans f := ∀ p : DiskPlan, p.Learned (f p)
  leavesOut _ := False

theorem Steps.onTerms (h : Steps .learning n m) : Steps .onTerms n m :=
  h.mono (fun _ hf p => (hf p).terms) fun _ => False.elim

theorem Within.onTerms {α : Type} {act : Planning α} (h : Within .learning act) :
    Within .onTerms act :=
  h.mono (fun _ hf p => (hf p).terms) fun _ => False.elim

namespace Planning

/-! ## Requests -/

theorem within_failFrom (source : QueueName) (reason : String) :
    Within .learning (failFrom id source reason) :=
  (within_onQueues _).bind fun _ => within_setPlan fun _ => .noted rfl

theorem within_expectSizes : Within .learning (expectSizes id) := by
  refine .getThen fun n => .ite ?_ (.pure ())
  refine (within_setPlan fun p => .expected p _).bind fun _ => (within_reckon _).bind fun _ => ?_
  exact .ite ((within_setPlan fun _ => .noted rfl).bind fun _ => within_onQueues _) (.pure ())

theorem within_announceSource (features : FeatureSet) :
    Within .learning (announceSource id features) :=
  .getThen fun _ => .ite (within_warn _) (.pure ())

theorem learned_noteUnasked (p : DiskPlan) : p.Learned (noteUnasked p) := by
  unfold noteUnasked
  split
  · exact .noted rfl
  · exact .refl p

theorem within_askDisk (features : FeatureSet) : Within .learning (askDisk features id) := by
  refine .getThen fun n => .ite (.pure []) ?_
  refine (within_setPlan fun _ => .noted rfl).bind fun _ => ?_
  refine (within_announceSource _).bind fun _ => ?_
  refine within_getPlan.bind fun p => ?_
  have hlines : Within .learning (pure (p.requestLines features) : Planning (List String)) :=
    .pure _
  refine .ite ?_ (.ite ?_ ?_)
  · refine .ite ?_ ?_
    · refine Within.bind ?_ fun _ => (within_onQueues _).bind fun _ => hlines
      exact within_setPlan fun p => (learned_noteUnasked p).trans (.noted rfl)
    · refine (within_setPlan fun _ => .noted rfl).bind fun _ => ?_
      exact (within_failFrom _ _).bind fun _ => hlines
  · refine (within_onQueues _).bind fun _ => ?_
    exact (within_setPlan fun _ => .noted rfl).bind fun _ => hlines
  · exact (within_setPlan fun _ => .noted rfl).bind fun _ => hlines

theorem within_awaitAnswer : Within .learning (awaitAnswer id) := by
  refine .getThen fun n => .ite ?_ (.pure ())
  exact (within_setPlan fun _ => .noted rfl).bind fun _ => within_onQueues _

theorem within_requestSizes (features : FeatureSet) :
    Within .learning (requestSizes h features) := by
  refine .getThen fun n => (Within.mapM (fun id => within_askDisk features) _).bind fun lines => ?_
  refine .ite ?_ ?_
  · exact (within_setHost h _).bind fun _ => .pure _
  · refine Within.bind (.forM fun id _ => within_awaitAnswer) fun _ => ?_
    exact (within_setHost h _).bind fun _ => .pure _

theorem within_request : Within .learning (request h) := by
  refine .getThen fun n => .ite (.pure _) (.getThen fun n => ?_)
  refine Within.bind (.forM fun id _ => within_expectSizes) fun _ => .getThen fun n => ?_
  refine .ite ((within_setHost h _).bind fun _ => .pure _) ?_
  split
  · exact (within_setHost h _).bind fun _ => .pure _
  · exact within_requestSizes _

/-! ## Hosts that fail -/

theorem within_resolveFailed (words : String) : Within .learning (resolveFailed words id) := by
  refine .getThen fun n => ?_
  split
  · refine .ite ?_ (.pure false)
    have hexpired : ∀ p : DiskPlan, p.Learned { p.expirePending with progress := .done } :=
      fun p => (DiskPlan.Learned.expired p).trans (.noted rfl)
    refine (within_setPlan hexpired).bind fun _ => ?_
    refine within_getPlan.bind fun p => .ite ?_ ?_
    · refine (within_setPlan fun _ => .noted rfl).bind fun _ => ?_
      exact (within_onQueues _).bind fun _ => .pure _
    · exact (within_failFrom _ _).bind fun _ => .pure _
  · exact .pure false

theorem within_hostFailed (words : String) : Within .learning (hostFailed h words) := by
  refine .getThen fun n => ?_
  refine (Within.mapM (fun id => within_resolveFailed words) _).bind fun wasOpen => ?_
  exact .ite ((within_warn _).bind fun _ => within_setHost h _) (within_setHost h _)

/-! ## Replies -/

theorem fits_of_packetLines {hostName : String} {packet : Packet} {lines : List ReplyLine}
    (h : packetLines hostName packet = .ok lines) : ∀ line ∈ lines, line.Fits := by
  unfold packetLines at h
  split at h
  · cases h
  · split at h
    · cases h
    · rename_i hread
      cases h
      exact fits_of_readReply hread

theorem within_takeDiskLine {disk : String} {level : Int} {enter : DiskPlan → DiskPlan}
    (henter : ∀ p : DiskPlan, p.Learned (enter p)) :
    Within .learning (takeDiskLine h disk level enter) := by
  refine .getThen fun n => ?_
  split
  · exact .pure false
  · refine (within_setPlan henter).bind fun _ => .ite ?_ (.pure false)
    exact (within_setPlan fun _ => .noted rfl).bind fun _ => .pure true

theorem within_takeLine (kind : PacketKind) {line : ReplyLine} (hfits : line.Fits) :
    Within .learning (takeLine h kind line) := by
  refine .getThen fun n => ?_
  cases line with
  | options features =>
    cases features with
    | none => exact .pure none
    | some hex =>
      dsimp only
      split
      · exact (within_setHost h _).bind fun _ => .pure none
      · exact .pure _
  | hostMessage severity message => exact .ite (.pure _) (.ite (.pure _) (.pure _))
  | size disk level size => exact (within_takeDiskLine fun p => .told p level hfits).map
  | diskMessage disk level message =>
    refine (within_takeDiskLine fun p => ?_).map
    split
    · exact .noted rfl
    · exact .refl p

theorem within_takeLines (kind : PacketKind) {lines : List ReplyLine}
    (hfit : ∀ line ∈ lines, line.Fits) : Within .learning (takeLines h kind lines) := by
  induction lines with
  | nil => exact .pure none
  | cons line rest ih =>
    obtain ⟨hline, hrest⟩ := List.forall_mem_cons.mp hfit
    refine (within_takeLine kind hline).bind fun words => ?_
    split
    · exact .pure _
    · exact ih hrest

theorem within_settleFrom (kind : PacketKind) (source : QueueName) :
    Within .learning (settleFrom h kind source id) := by
  refine within_getPlan.bind fun p => (within_onQueues _).bind fun _ => .ite ?_ ?_
  · exact (within_setPlan fun _ => .noted rfl).bind fun _ => within_onQueues _
  · refine (within_setPlan fun _ => .noted rfl).bind fun _ => (within_setHost h _).bind fun _ => ?_
    refine .ite (within_onQueues _) (.getThen fun _ => ?_)
    exact (within_setPlan fun _ => .noted rfl).bind fun _ => within_onQueues _

theorem within_settleDisk (kind : PacketKind) : Within .learning (settleDisk h kind id) := by
  refine within_getPlan.bind fun p => ?_
  split
  · exact within_settleFrom kind _
  · exact within_settleFrom kind _
  · exact .pure ()
  · exact .pure ()

theorem within_onReply (packet : Packet) : Within .learning (onReply h packet) := by
  refine (within_setHost h _).bind fun _ => .getThen fun n => ?_
  split
  · exact within_hostFailed _
  · rename_i hread
    refine (within_takeLines _ (fits_of_packetLines hread)).bind fun words => ?_
    split
    · exact within_hostFailed _
    · refine (within_setHost h _).bind fun _ => .getThen fun n => ?_
      exact .forM fun id _ => within_settleDisk _

theorem within_onTransportFault (f : TransportFault) :
    Within .learning (onTransportFault h f) := .getThen fun _ => within_hostFailed _

theorem within_cancelAll : Within .learning cancelAll := by
  refine .getThen fun n => .forM fun h _ => .getThen fun n => ?_
  exact .ite (within_hostFailed _) (.pure ())

/-! ## The end of gathering -/

theorem within_strand : Within .learning (strand id) :=
  (within_onQueues _).bind fun _ =>
    (within_setPlan fun _ => .noted rfl).bind fun _ => within_onQueues _

theorem within_closePartial : Within .learning (closePartial id) := by
  refine (within_onQueues _).bind fun _ => within_getPlan.bind fun p => .getThen fun n => ?_
  refine (within_setPlan fun p => .expired p).bind fun _ => ?_
  refine Within.bind (.forM fun level _ => within_warn _) fun _ => .ite (within_onQueues _) ?_
  exact (within_setPlan fun _ => .noted rfl).bind fun _ => within_onQueues _

theorem within_closeUnasked : Within .learning (closeUnasked id) :=
  (within_onQueues _).bind fun _ =>
    (within_setPlan fun _ => .noted rfl).bind fun _ => within_onQueues _

theorem within_finish : Within .learning finish := by
  refine .getThen fun n => Within.bind (.forM fun id _ => within_strand) fun _ => ?_
  refine .getThen fun n => Within.bind (.forM fun id _ => within_closePartial) fun _ => ?_
  exact .getThen fun n => .forM fun id _ => within_closeUnasked

theorem within_act (turn : Turn) : Within .learning turn.act := by
  cases turn with
  | ask h => exact within_request
  | packet h p => exact (within_onReply p).bind fun _ => .pure _
  | fault h f => exact (within_onTransportFault f).bind fun _ => .pure _
  | callOff => exact within_cancelAll.bind fun _ => .pure _

/-- Every turn goes by steps in which sizes are learned. -/
theorem learning_kept (hn : n.Hosted) :
    KeptByTurns fun m => Conversing [] n m ∧ Steps .learning n m where
  act hm turn :=
    ((leads_act hn hm.1 turn : Leads _ _ _ never).and (within_act turn _)).mono
      (fun _ _ hk => ⟨hk.1, hm.2.trans hk.2⟩) fun _ _ hf => hf.1
  sent hm sent := ⟨conversing_noteSent hm.1 sent, hm.2.tail (.sent _ sent)⟩

end Planning

/-- In turns, sizes are learned. -/
theorem Reached.learns {t : Talks} (hr : Reached n m t) : Steps .learning n m := by
  induction hr with
  | begin => exact .refl
  | turn _ _ hact ih => exact ih.trans ((within_act _ _ : Leads _ _ _ _).ok hact)

/-- However sizes are gathered, they are learned. -/
theorem Gathering.learns {act : Planning Unit} (hg : Gathering act) (hn : n.Hosted)
    (hc : Conversing [] n n) : Leads act n (fun _ k => Steps .learning n k) never := by
  have hfinish : ∀ {k}, Conversing [] n k ∧ Steps .learning n k →
      Leads finish k (fun _ l => Steps .learning n l) never := fun hk =>
    ((leads_finish hk.1 : Leads _ _ _ never).and (within_finish _)).mono
      (fun _ _ hl => hk.2.trans hl.2) fun _ _ hf => hf.1
  cases hg with
  | rounds net hosts cancelled =>
    exact leads_gather_finish (learning_kept hn) net hosts cancelled ⟨hc, .refl⟩ hfinish
  | turns turns => exact leads_gatherTurns_finish (learning_kept hn) ⟨hc, .refl⟩ turns hfinish

/-- Turns keep the terms of every disk. -/
theorem Reached.steps {t : Talks} (hr : Reached n m t) : Steps .onTerms n m := hr.learns.onTerms

/-- Gathering keeps the terms of every disk. -/
theorem Gathering.steps {act : Planning Unit} (hg : Gathering act) (hn : n.Hosted)
    (hc : Conversing [] n n) : Leads act n (fun _ k => Steps .onTerms n k) never :=
  (hg.learns hn hc).imp fun _ _ hk => hk.onTerms

end NightlyBackup
