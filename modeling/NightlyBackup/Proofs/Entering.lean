import NightlyBackup.Proofs.Hearing
import NightlyBackup.Proofs.HostActions

/-!
Acceptable packets. A host may announce what it can do, tell a size of a disk at a level that it
was asked for, and in its final reply give a message about a disk. What such a line enters does
not depend on the packet that brings it, and none of it is undone by what is done about the packet
as a whole: a packet is as good as its lines, entered one after another, and one look at the disks.
-/

namespace NightlyBackup

open Night

/-! ## What is acceptable -/

/-- The host was asked about a disk of this name, and for this level if it is not zero. -/
def Night.AsksFor (m : Night) (h : Nat) (disk : String) (level : Int) : Prop :=
  ∃ id, (m.host h).disks.find? (m.diskName · = disk) = some id ∧
    (level ≤ 0 ∨ level.toNat ∈ (m.plan id).question.levels)

/-- A line with which a host does not fail, in a packet of this kind. Messages about disks come
with the final reply only. -/
def Night.Accepts (m : Night) (h : Nat) (kind : PacketKind) : ReplyLine → Prop
  | .options none => True
  | .options (some hex) => (FeatureSet.ofHex? hex).isSome
  | .hostMessage .. => False
  | .size disk level _ => m.AsksFor h disk level
  | .diskMessage disk level _ => kind = .rep ∧ m.AsksFor h disk level

structure Packet.Tells (packet : Packet) (m : Night) (h : Nat) (lines : List ReplyLine) : Prop where
  reply : packet.kind ≠ .nak
  read : readReply packet.body = .ok lines
  accepted : ∀ line ∈ lines, m.Accepts h packet.kind line

/-! ## What a line enters -/

def Night.tell (m : Night) (h : Nat) (disk : String) (enter : DiskPlan → DiskPlan) : Night :=
  match (m.host h).disks.find? (m.diskName · = disk) with
  | some id => m.setPlan id fun p => { enter p with answers := (enter p).answers + 1 }
  | none => m

def Night.enterLine (m : Night) (h : Nat) : ReplyLine → Night
  | .options (some hex) =>
    match FeatureSet.ofHex? hex with
    | some features => m.setHost h fun host => { host with features := some features }
    | none => m
  | .size disk level size => m.tell h disk (·.takeSize level size)
  | .diskMessage disk _ message =>
    m.tell h disk fun p => { p with fault := some (p.fault.getD message) }
  | .options none | .hostMessage .. => m

def Night.enterLines (m : Night) (h : Nat) (lines : List ReplyLine) : Night :=
  lines.foldl (·.enterLine h ·) m

def Host.heard (x : Host) : Host :=
  { x with state := .ready, features := some (x.features.getD {}) }

def DiskPlan.withProgress (p : DiskPlan) (x : Progress) : DiskPlan := { p with progress := x }

@[simp]
theorem DiskPlan.withProgress_self (p : DiskPlan) : p.withProgress p.progress = p := rfl

/-- The change `f` of a plan enters something that was told: neither does it depend on how far the
exchange has come, nor does it change that, or what is asked. -/
structure DiskPlan.Enters (f : DiskPlan → DiskPlan) : Prop where
  question : ∀ p, (f p).question = p.question
  progress : ∀ p x, f (p.withProgress x) = (f p).withProgress x

variable {m k : Night} {h id : Nat} {kind : PacketKind} {line : ReplyLine}
  {lines : List ReplyLine} {packet : Packet}

theorem DiskPlan.acceptsLevel_iff {p : DiskPlan} {level : Int} :
    p.acceptsLevel level = true ↔ level ≤ 0 ∨ level.toNat ∈ p.question.levels := by
  simp [acceptsLevel, slot?, question]

namespace Night

/-- The same is acceptable where the same is asked. -/
theorem Accepts.congr (ha : m.Accepts h kind line) (hdisks : (k.host h).disks = (m.host h).disks)
    (hq : ∀ id, (k.plan id).question = (m.plan id).question) : k.Accepts h kind line := by
  have hasks : ∀ {disk level}, m.AsksFor h disk level → k.AsksFor h disk level := by
    rintro disk level ⟨id, hfind, hlevel⟩
    have hname : ∀ id, k.diskName id = m.diskName id := fun id => congrArg (·.disk.name) (hq id)
    exact ⟨id, by simpa only [hdisks, hname] using hfind, by rwa [hq]⟩
  cases line with
  | options hex => cases hex <;> exact ha
  | hostMessage severity message => exact ha
  | size disk level size => exact hasks ha
  | diskMessage disk level message => exact ⟨ha.1, hasks ha.2⟩

/-- What may come with a part of a reply may come with the whole of it. -/
theorem Accepts.whole (ha : m.Accepts h .prep line) : m.Accepts h .rep line := by
  cases line with
  | options hex => cases hex <;> exact ha
  | hostMessage severity message => exact ha
  | size disk level size => exact ha
  | diskMessage disk level message => cases ha.1

end Night

namespace DiskPlan.Enters

variable {f : DiskPlan → DiskPlan}

theorem keeps (he : Enters f) (p : DiskPlan) : (f p).progress = p.progress :=
  congrArg (·.progress) (he.progress p p.progress)

theorem answered (he : Enters f) : Enters fun p => { f p with answers := (f p).answers + 1 } :=
  ⟨he.question, fun p x => by rw [he.progress]; rfl⟩

theorem takeSize (level size : Int) : Enters (·.takeSize level size) := by
  refine ⟨fun p => (Retold.takeSize level size).question, fun p x => ?_⟩
  simp only [DiskPlan.takeSize, slot?, withProgress]
  split
  · split
    · split
      · rfl
      · split <;> rfl
    · rfl
  · rfl

theorem message (words : String) : Enters fun p => { p with fault := some (p.fault.getD words) } :=
  ⟨fun _ => rfl, fun _ _ => rfl⟩

end DiskPlan.Enters

namespace Night

/-- Where a host has the same disks in two nights, the same line enters the same in both: features
of the host, or something about the same disk, or nothing. -/
theorem enterLine_both {R : Night → Night → Prop} (line : ReplyLine)
    (hdisks : (k.host h).disks = (m.host h).disks) (hname : ∀ id, k.diskName id = m.diskName id)
    (hkept : R m k)
    (hhost : ∀ features, R (m.setHost h fun host => { host with features := some features })
      (k.setHost h fun host => { host with features := some features }))
    (hplan : ∀ id f, DiskPlan.Enters f → R (m.setPlan id f) (k.setPlan id f)) :
    R (m.enterLine h line) (k.enterLine h line) := by
  have htell : ∀ disk f, DiskPlan.Enters f → R (m.tell h disk f) (k.tell h disk f) := by
    intro disk f hf
    simp only [Night.tell, hdisks, hname]
    split
    · exact hplan _ _ hf.answered
    · exact hkept
  cases line with
  | options hex =>
    cases hex with
    | none => exact hkept
    | some hex =>
      simp only [enterLine]
      split
      · exact hhost _
      · exact hkept
  | hostMessage severity message => exact hkept
  | size disk level size => exact htell disk _ (.takeSize level size)
  | diskMessage disk level message => exact htell disk _ (.message message)

/-- From `m` to `k` neither the name and the disks of the host change, nor what is asked about any
disk, nor how far the exchange about it has come. -/
structure Undisturbed (h : Nat) (m k : Night) : Prop where
  hostName : (k.host h).name = (m.host h).name
  disks : (k.host h).disks = (m.host h).disks
  question : ∀ id, (k.plan id).question = (m.plan id).question
  progress : ∀ id, (k.plan id).progress = (m.plan id).progress
  place : ∀ id, k.place id = m.place id

theorem Undisturbed.refl (h : Nat) (m : Night) : Undisturbed h m m :=
  ⟨rfl, rfl, fun _ => rfl, fun _ => rfl, fun _ => rfl⟩

theorem Undisturbed.trans {l : Night} (hmk : Undisturbed h m k) (hkl : Undisturbed h k l) :
    Undisturbed h m l :=
  ⟨hkl.hostName.trans hmk.hostName, hkl.disks.trans hmk.disks,
    fun id => (hkl.question id).trans (hmk.question id),
    fun id => (hkl.progress id).trans (hmk.progress id),
    fun id => (hkl.place id).trans (hmk.place id)⟩

theorem Undisturbed.accepts (hmk : Undisturbed h m k) (ha : m.Accepts h kind line) :
    k.Accepts h kind line :=
  ha.congr hmk.disks hmk.question

theorem Undisturbed.tells (hmk : Undisturbed h m k) (hs : packet.Tells m h lines) :
    packet.Tells k h lines :=
  ⟨hs.reply, hs.read, fun line hline => hmk.accepts (hs.accepted line hline)⟩

theorem undisturbed_setHost {f : Host → Host}
    (hf : ∀ x, (f x).name = x.name ∧ (f x).disks = x.disks) :
    Undisturbed h m (m.setHost h f) := by
  have hsame := host_setHost_cases (n := m) (h := h)
    (P := fun x => x.name = (m.host h).name ∧ x.disks = (m.host h).disks) (hf _) ⟨rfl, rfl⟩
  exact ⟨hsame.1, hsame.2, fun _ => rfl, fun _ => rfl, fun _ => rfl⟩

theorem undisturbed_heard : Undisturbed h m (m.setHost h Host.heard) :=
  undisturbed_setHost fun _ => ⟨rfl, rfl⟩

theorem undisturbed_setPlan {f : DiskPlan → DiskPlan} (hf : DiskPlan.Enters f) :
    Undisturbed h m (m.setPlan id f) :=
  ⟨rfl, rfl, fun j => question_setPlan hf.question j, fun j =>
    plan_setPlan_cases (P := fun p => p.progress = (m.plan j).progress) (hf.keeps _) rfl,
    fun _ => rfl⟩

theorem undisturbed_enterLine (line : ReplyLine) : Undisturbed h m (m.enterLine h line) :=
  enterLine_both (R := fun k _ => Undisturbed h m k) line rfl (fun _ => rfl) (.refl h m)
    (fun _ => undisturbed_setHost fun _ => ⟨rfl, rfl⟩) fun _ _ hf => undisturbed_setPlan hf

theorem enterLines_append (lines more : List ReplyLine) :
    m.enterLines h (lines ++ more) = (m.enterLines h lines).enterLines h more :=
  List.foldl_append

theorem undisturbed_enterLines (lines : List ReplyLine) :
    Undisturbed h m (m.enterLines h lines) := by
  induction lines generalizing m with
  | nil => exact .refl h m
  | cons line lines ih => exact (undisturbed_enterLine line).trans ih

/-- A change of the host that neither looks at its features nor at its disks may as well be made
after the line is entered. -/
theorem enterLine_setHost {f : Host → Host}
    (hd : ∀ x, (f x).name = x.name ∧ (f x).disks = x.disks)
    (hf : ∀ x features, ({ f x with features := some features } : Host) =
      f { x with features := some features }) (line : ReplyLine) :
    (m.setHost h f).enterLine h line = (m.enterLine h line).setHost h f := by
  refine enterLine_both (R := fun a b => b = a.setHost h f) line (undisturbed_setHost hd).disks
    (fun _ => rfl) rfl (fun features => ?_) fun _ _ _ => rfl
  rw [setHost_setHost, setHost_setHost]
  exact congrArg (m.setHost h) (funext fun x => hf x features)

theorem enterLines_setHost {f : Host → Host}
    (hd : ∀ x, (f x).name = x.name ∧ (f x).disks = x.disks)
    (hf : ∀ x features, ({ f x with features := some features } : Host) =
      f { x with features := some features }) (lines : List ReplyLine) :
    (m.setHost h f).enterLines h lines = (m.enterLines h lines).setHost h f := by
  induction lines generalizing m with
  | nil => rfl
  | cons line lines ih =>
    change ((m.setHost h f).enterLine h line).enterLines h lines = _
    rw [enterLine_setHost hd hf, ih]
    rfl

theorem enterLines_heard (lines : List ReplyLine) :
    (m.setHost h Host.heard).enterLines h lines = (m.enterLines h lines).setHost h Host.heard :=
  enterLines_setHost (f := Host.heard) (fun _ => ⟨rfl, rfl⟩) (fun _ _ => rfl) lines

/-- To have heard of a host twice is to have heard of it. -/
theorem heard_heard : (m.setHost h Host.heard).setHost h Host.heard = m.setHost h Host.heard := by
  rw [setHost_setHost]
  rfl

end Night

/-! ## What a packet does -/

namespace Planning

theorem takeDiskLine_eq {disk : String} {level : Int} (enter : DiskPlan → DiskPlan)
    (ha : m.AsksFor h disk level) :
    takeDiskLine h disk level enter m = .ok true (m.tell h disk enter) := by
  obtain ⟨id, hfind, hlevel⟩ := ha
  have hlevel := DiskPlan.acceptsLevel_iff.mpr hlevel
  have htold : m.tell h disk enter =
      (m.setPlan id enter).setPlan id fun p => { p with answers := p.answers + 1 } := by
    rw [setPlan_setPlan, Night.tell, hfind]
    rfl
  have htaken : Leads (takeDiskLine h disk level enter) m
      (fun ok k => ok = true ∧ k = m.tell h disk enter) never := by
    simp only [takeDiskLine, leads_bind, leads_get, hfind, setPlan, leads_modify, hlevel,
      if_true, leads_pure, htold, and_self]
  obtain ⟨_, _, hok, rfl, rfl⟩ := htaken.exists_ok
  exact hok

theorem takeLine_eq (ha : m.Accepts h kind line) :
    takeLine h kind line m = .ok none (m.enterLine h line) := by
  have htaken : Leads (takeLine h kind line) m
      (fun words k => words = none ∧ k = m.enterLine h line) never := by
    cases line with
    | options hex =>
      cases hex with
      | none => exact ⟨rfl, rfl⟩
      | some hex =>
        obtain ⟨features, hfeatures⟩ := Option.isSome_iff_exists.mp ha
        simp [takeLine, enterLine, hfeatures, setHost]
    | hostMessage severity message => exact ha.elim
    | size disk level size =>
      simp [takeLine, enterLine, leads_iff_of_ok (takeDiskLine_eq _ ha)]
    | diskMessage disk level message =>
      obtain ⟨rfl, ha⟩ := ha
      simp [takeLine, enterLine, leads_iff_of_ok (takeDiskLine_eq _ ha)]
  obtain ⟨_, _, hok, rfl, rfl⟩ := htaken.exists_ok
  exact hok

theorem takeLines_eq (ha : ∀ line ∈ lines, m.Accepts h kind line) :
    takeLines h kind lines m = .ok none (m.enterLines h lines) := by
  induction lines generalizing m with
  | nil => rfl
  | cons line lines ih =>
    obtain ⟨hline, hlines⟩ := List.forall_mem_cons.mp ha
    rw [takeLines, bind_of_ok (takeLine_eq hline)]
    exact ih fun other hother => (undisturbed_enterLine line).accepts (hlines other hother)

/-- An acceptable packet is its lines, and then one look at the disks of the host. -/
theorem onReply_tells (hs : packet.Tells m h lines) : onReply h packet m =
    ((m.host h).disks.forM (settleDisk h packet.kind))
      ((m.setHost h Host.heard).enterLines h lines) := by
  let answering : Host → Host := fun host => { host with state := .ready }
  let ready := m.setHost h answering
  have hready : Undisturbed h m ready := undisturbed_setHost fun _ => ⟨rfl, rfl⟩
  have hlines : packetLines (ready.host h).name packet = .ok lines := by
    simp only [packetLines, if_neg hs.reply, hs.read]
  have htaken : takeLines h packet.kind lines ready = .ok none (ready.enterLines h lines) :=
    takeLines_eq fun line hline => hready.accepts (hs.accepted line hline)
  have hrun : Leads (hear h packet) m
      (fun words k => words = none ∧ k = ready.enterLines h lines) never := by
    simp only [hear, setHost, leads_bind, leads_modify, leads_get]
    rw [hlines]
    exact leads_of_ok htaken ⟨rfl, rfl⟩
  obtain ⟨_, _, hheard, rfl, rfl⟩ := hrun.exists_ok
  rw [onReply_eq, bind_of_ok hheard]
  let known := (ready.enterLines h lines).setHost h fun host =>
    { host with features := some (host.features.getD {}) }
  have hknown : known = (m.setHost h Host.heard).enterLines h lines := by
    have hentered : ready.enterLines h lines = (m.enterLines h lines).setHost h answering :=
      enterLines_setHost (f := answering) (fun _ => ⟨rfl, rfl⟩) (fun _ _ => rfl) lines
    simp only [known]
    rw [hentered, setHost_setHost, enterLines_heard]
    rfl
  have hdisks : (known.host h).disks = (m.host h).disks := by
    rw [hknown]
    exact (undisturbed_heard.trans (undisturbed_enterLines lines)).disks
  change ((known.host h).disks.forM (settleDisk h packet.kind)) known = _
  rw [hdisks, hknown]

end Planning

end NightlyBackup
