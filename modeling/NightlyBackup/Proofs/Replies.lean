import NightlyBackup.Proofs.Exchanging

/-!
Replies. What a packet tells about disks is entered before anything is done about them, also about
disks whose exchange is over. Then the disks that awaited the packet are moved, or all that are
still open if the host fails.
-/

namespace NightlyBackup

open Night

variable {named : List Nat} {h id : Nat} {n m k l : Night} {fail : Fault → Night → Prop}

/-! ## What a host tells -/

def DiskPlan.untold (p : DiskPlan) : DiskPlan :=
  { p with levels := p.levels.map (·.setSize .pending false), answers := 0, fault := none }

/-- A host has told something about the disk of `p`: in `q` there may be other sizes and more
answers, and a fault if there was none. -/
structure DiskPlan.Retold (p q : DiskPlan) : Prop where
  untold : q.untold = p.untold
  fault : ∀ {words}, p.fault = some words → q.fault = some words

namespace DiskPlan.Retold

variable {p q r : DiskPlan}

theorem refl : p.Retold p := ⟨rfl, fun h => h⟩

theorem trans (h : p.Retold q) (h' : q.Retold r) : p.Retold r :=
  ⟨h'.untold.trans h.untold, fun hf => h'.fault (h.fault hf)⟩

theorem progress (h : p.Retold q) : q.progress = p.progress := congrArg (·.progress) h.untold

theorem host (h : p.Retold q) : q.host = p.host := congrArg (·.host) h.untold

theorem diskName (h : p.Retold q) : q.disk.name = p.disk.name := congrArg (·.disk.name) h.untold

theorem setSize (slot : Nat) (size : SizeEstimate) (guessed : Bool) :
    p.Retold (p.setSize slot size guessed) := by
  have hlevels : (p.levels.modify slot (·.setSize size guessed)).map (·.setSize .pending false) =
      p.levels.map (·.setSize .pending false) := by
    refine List.ext_getElem? fun i => ?_
    rw [List.getElem?_map, List.getElem?_map, List.getElem?_modify]
    cases p.levels[i]? with
    | none => rfl
    | some e => exact congrArg some (by split <;> rfl)
  refine ⟨?_, fun hf => hf⟩
  simp only [DiskPlan.untold, DiskPlan.setSize, hlevels]

theorem takeSize (level size : Int) : p.Retold (p.takeSize level size) := by
  unfold DiskPlan.takeSize
  split
  · split
    · split
      · exact setSize ..
      · split
        · exact setSize ..
        · exact refl
    · exact refl
  · exact refl

theorem noteMessage (kind : PacketKind) (message : String) :
    p.Retold (if kind = .rep then { p with fault := some (p.fault.getD message) } else p) := by
  split
  · refine ⟨rfl, fun hf => ?_⟩
    rw [hf]
    rfl
  · exact refl

end DiskPlan.Retold

def ReplyLine.about? : ReplyLine → Option String
  | .size disk .. | .diskMessage disk .. => some disk
  | .options _ | .hostMessage .. => none

/-- Nothing but features and plans differ between `m` and `k`: the host `h` may have told
something about those of its disks that have one of the names. -/
structure Told (h : Nat) (names : String → Prop) (m k : Night) : Prop where
  concerns : Concerns h m k
  place : ∀ id, k.place id = m.place id
  state : (k.host h).state = (m.host h).state
  retold : ∀ id, (m.plan id).Retold (k.plan id)
  others : ∀ {id}, (id ∈ (m.host h).disks → ¬names (m.diskName id)) → k.plan id = m.plan id

namespace Told

variable {names others : String → Prop}

theorem refl : Told h names m m :=
  ⟨.refl h m, fun _ => rfl, rfl, fun _ => .refl, fun _ => rfl⟩

theorem trans (hmk : Told h names m k) (hkl : Told h names k l) : Told h names m l := by
  refine ⟨hmk.concerns.trans hkl.concerns, fun id => (hkl.place id).trans (hmk.place id),
    hkl.state.trans hmk.state, fun id => (hmk.retold id).trans (hkl.retold id), ?_⟩
  intro id hid
  have hname : k.diskName id = m.diskName id := hmk.concerns.same.diskName id
  refine (hkl.others ?_).trans (hmk.others hid)
  rwa [hmk.concerns.same.disks, hname]

theorem mono (ht : Told h names m k) (hsub : ∀ disk, names disk → others disk) :
    Told h others m k :=
  ⟨ht.concerns, ht.place, ht.state, ht.retold,
    fun hid => ht.others fun hm hd => hid hm (hsub _ hd)⟩

theorem setPlan {enter : DiskPlan → DiskPlan} (he : ∀ p : DiskPlan, p.Retold (enter p))
    (hid : id ∈ (m.host h).disks) : Told h (· = m.diskName id) m (m.setPlan id enter) := by
  have hat : OnlyAt id m (m.setPlan id enter) :=
    OnlyAt.setPlan fun p => ⟨(he p).host, (he p).diskName⟩
  refine ⟨⟨hat.same, fun _ => rfl, fun _ => rfl⟩, fun _ => rfl, rfl, fun j => ?_, fun {j} hj => ?_⟩
  · exact plan_setPlan_cases (P := fun p => (m.plan j).Retold p) (he _) .refl
  · refine hat.plan fun e => ?_
    subst e
    exact hj hid rfl

end Told

theorem Conversing.told {names : String → Prop} (hc : Conversing named n m)
    (ht : Told h names m k) (hs : k.Sound) (hskipped : k.skipped = m.skipped) :
    Conversing named n k := by
  refine ⟨hs, hc.same.trans ht.concerns.same, hskipped.trans hc.skipped, fun j => ?_⟩
  rw [ht.place]
  refine (hc.standing j).congr (ht.retold j).progress fun hf => ?_
  obtain ⟨words, hw⟩ := Option.isSome_iff_exists.mp hf
  rw [(ht.retold j).fault hw]
  rfl

/-- A record from `m` to `k` when something may have been told about its disk: nothing else has
changed, and nothing at all if nothing was told. -/
structure Preserved (told : Prop) (id : Nat) (m k : Night) : Prop where
  place : k.place id = m.place id
  retold : (m.plan id).Retold (k.plan id)
  plan : ¬told → k.plan id = m.plan id

namespace Preserved

variable {told told' : Prop}

theorem refl : Preserved told id m m := ⟨rfl, .refl, fun _ => rfl⟩

theorem trans (hmk : Preserved told id m k) (hkl : Preserved told id k l) :
    Preserved told id m l :=
  ⟨hkl.place.trans hmk.place, hmk.retold.trans hkl.retold,
    fun h => (hkl.plan h).trans (hmk.plan h)⟩

theorem mono (h : Preserved told id m k) (hsub : told → told') : Preserved told' id m k :=
  ⟨h.place, h.retold, fun hnot => h.plan fun ht => hnot (hsub ht)⟩

end Preserved

theorem KeepsOver.preserved {told : Prop} (hmk : KeepsOver m k)
    (ho : (m.plan id).progress = .done) : Preserved told id m k := by
  obtain ⟨hplan, hplace⟩ := hmk id ho
  refine ⟨hplace, ?_, fun _ => hplan⟩
  rw [hplan]
  exact .refl

theorem Told.preserved {names : String → Prop} (ht : Told h names m k) (id : Nat) :
    Preserved (id ∈ (m.host h).disks ∧ names (m.diskName id)) id m k :=
  ⟨ht.place id, ht.retold id, fun hnot => ht.others fun hid hd => hnot ⟨hid, hd⟩⟩

/-- The packet is one of the host `h`, and a line of it is about the disk of the record. -/
def Packet.Names (packet : Packet) (m : Night) (h id : Nat) : Prop :=
  id ∈ (m.host h).disks ∧ ∃ lines, Planning.packetLines (m.host h).name packet = .ok lines ∧
    ∃ line ∈ lines, line.about? = some (m.diskName id)

/-- A packet changes a disk whose exchange is over at most by what it tells about the disk. -/
def Overheard (packet : Packet) (h : Nat) (m k : Night) : Prop :=
  ∀ id, (m.plan id).progress = .done → Preserved (packet.Names m h id) id m k

theorem Spares.overheard {packet : Packet} (hs : Spares h m k) : Overheard packet h m k :=
  fun _ ho => hs.finished.preserved ho

/-- What a packet tells is taken first; then disks are moved whose exchanges are not over. -/
theorem Told.overheard {packet : Packet} {lines : List ReplyLine} {r : Night} (hm : Spares h m r)
    (hlines : Planning.packetLines (r.host h).name packet = .ok lines)
    (hrl : Told h (fun disk => ∃ line ∈ lines, line.about? = some disk) r l)
    (hlk : Spares h l k) : Overheard packet h m k := by
  intro id ho
  have hmr : Preserved (packet.Names m h id) id m r := hm.finished.preserved ho
  have hname : r.diskName id = m.diskName id := hm.same.diskName id
  rw [hm.same.hostName] at hlines
  have hrl := hrl.preserved id
  rw [hm.same.disks, hname] at hrl
  have hml := hmr.trans (hrl.mono fun ⟨hid, hd⟩ => ⟨hid, lines, hlines, hd⟩)
  rw [← hml.retold.progress] at ho
  exact hml.trans (hlk.finished.preserved ho)

/-! ## What a packet does to a host -/

def Onward (m k : Night) (id : Nat) : Prop :=
  k.place id = m.place id ∨ (Awaits m id ∧ Awaits k id) ∨ Resolved k id

/-- What a packet may do to a host. -/
structure Answered (kind : PacketKind) (h : Nat) (m k : Night) : Prop where
  onward : ∀ id ∈ (m.host h).disks, Onward m k id
  final : kind.isFinal = true → Unasked k h
  state : (k.host h).state ≠ .active
  done : (k.host h).state = .done → Idle k h ∨ (¬Unasked m h ∧ Unasked k h)

/-- Only the places of the disks before the packet count. -/
theorem Answered.congr {kind : PacketKind} (ha : Answered kind h l k) (hsame : m.SameDisks l)
    (hp : ∀ id, l.place id = m.place id) : Answered kind h m k := by
  have haw : ∀ id, Awaits l id ↔ Awaits m id := by
    intro id
    rw [Awaits, Awaits, hp]
  have hu : Unasked l h ↔ Unasked m h := by
    simp only [Unasked, haw, hsame.disks]
  refine ⟨fun id hid => ?_, ha.final, ha.state, fun hd => (ha.done hd).imp_right ?_⟩
  · rw [← hsame.disks] at hid
    rcases ha.onward id hid with e | ⟨haw', hk⟩ | hr
    · exact Or.inl (e.trans (hp id))
    · exact Or.inr (Or.inl ⟨(haw id).mp haw', hk⟩)
    · exact Or.inr (Or.inr hr)
  · rintro ⟨hnu, hk⟩
    exact ⟨fun h => hnu (hu.mpr h), hk⟩

namespace Planning

theorem leads_takeDiskLine (hc : Conversing [] n m) (disk : String) (level : Int)
    {enter : DiskPlan → DiskPlan} (he : ∀ p : DiskPlan, p.Retold (enter p)) :
    Leads (takeDiskLine h disk level enter) m (fun _ k =>
      Conversing [] n k ∧ Told h (· = disk) m k) fail := by
  simp only [takeDiskLine, leads_bind, leads_get]
  split
  · exact ⟨hc, .refl⟩
  · rename_i id hfind
    obtain rfl : m.diskName id = disk := by simpa using List.find?_some hfind
    have hid : id ∈ (m.host h).disks := List.mem_of_find?_eq_some hfind
    have hmk := Told.setPlan he hid
    have hk := hc.told hmk (hc.sound.setPlan enter) rfl
    simp only [setPlan, leads_bind, leads_modify]
    split
    · have hcounts : ∀ p : DiskPlan, p.Retold { p with answers := p.answers + 1 } :=
        fun _ => ⟨rfl, fun hf => hf⟩
      have hkl := Told.setPlan (m := m.setPlan id enter) hcounts (h := h) hid
      have hname : (m.setPlan id enter).diskName id = m.diskName id :=
        hmk.concerns.same.diskName id
      rw [hname] at hkl
      exact ⟨hk.told hkl (hk.sound.setPlan _) rfl, hmk.trans hkl⟩
    · exact ⟨hk, hmk⟩

theorem leads_takeLine (hc : Conversing [] n m) (kind : PacketKind) (line : ReplyLine) :
    Leads (takeLine h kind line) m (fun _ k =>
      Conversing [] n k ∧ Told h (line.about? = some ·) m k) fail := by
  have hkept : Conversing [] n m ∧ Told h (line.about? = some ·) m m := ⟨hc, .refl⟩
  cases line with
  | options hex =>
    cases hex with
    | none => exact hkept
    | some hex =>
      simp only [takeLine, leads_bind, leads_get]
      split
      · rename_i features _
        have hf : ∀ x : Host, ({ x with features := some features } : Host).name = x.name ∧
          ({ x with features := some features } : Host).disks = x.disks := fun _ => ⟨rfl, rfl⟩
        refine ⟨hc.setHost hf, .setHost hf, fun _ => rfl, ?_, fun _ => .refl, fun _ => rfl⟩
        exact host_setHost_cases (P := fun x => x.state = (m.host h).state) rfl rfl
      · exact hkept
  | hostMessage severity message =>
    simp only [takeLine, leads_bind, leads_get]
    split
    · exact hkept
    · split
      · exact hkept
      · exact hkept
  | size disk level size =>
    simp only [takeLine, leads_bind, leads_get, leads_map]
    apply (leads_takeDiskLine hc disk level fun _ => .takeSize level size).imp
    rintro _ k ⟨hk, hmk⟩
    exact ⟨hk, hmk.mono fun _ e => congrArg some e.symm⟩
  | diskMessage disk level message =>
    simp only [takeLine, leads_bind, leads_get, leads_map]
    apply (leads_takeDiskLine hc disk level fun _ => .noteMessage kind message).imp
    rintro _ k ⟨hk, hmk⟩
    exact ⟨hk, hmk.mono fun _ e => congrArg some e.symm⟩

theorem leads_takeLines (hc : Conversing [] n m) (kind : PacketKind) (lines : List ReplyLine) :
    Leads (takeLines h kind lines) m (fun _ k => Conversing [] n k ∧
      Told h (fun disk => ∃ line ∈ lines, line.about? = some disk) m k) fail := by
  induction lines generalizing m with
  | nil => exact ⟨hc, .refl⟩
  | cons line lines ih =>
    simp only [takeLines, leads_bind]
    apply (leads_takeLine hc kind line).imp
    rintro words k ⟨hk, hmk⟩
    have hmk : Told h (fun disk => ∃ other ∈ line :: lines, other.about? = some disk) m k :=
      hmk.mono fun _ hd => ⟨line, List.mem_cons_self .., hd⟩
    cases words with
    | some words => exact ⟨hk, hmk⟩
    | none =>
      apply (ih hk).imp
      rintro words l ⟨hl, hkl⟩
      refine ⟨hl, hmk.trans (hkl.mono ?_)⟩
      rintro _ ⟨other, hother, hd⟩
      exact ⟨other, List.mem_cons_of_mem _ hother, hd⟩

theorem leads_settleAll (hn : n.Hosted) (hc : Conversing [] n m) (kind : PacketKind)
    (hr : (m.host h).state = .ready) :
    Leads ((m.host h).disks.forM (settleDisk h kind)) m (fun _ k =>
      Conversing [] n k ∧ Spares h m k ∧ Answered kind h m k) fail := by
  have hfinal : kind.isFinal = true → kind ≠ .prep := by
    rintro hf rfl
    cases hf
  refine (leads_forM_disks
    (I := fun k => (k.host h).state = .ready ∨
      (kind ≠ .prep ∧ (k.host h).state ≠ .active ∧ ¬Unasked m h))
    (P := fun id _ q => q = m.place id)
    (Q := fun id _ q => (¬Awaits m id ∧ q = m.place id) ∨ (Awaits m id ∧
      if kind = .prep then q = some .waiting ∨ q = some .partialEstimate
      else q = none ∨ q = some .estimated ∨ q = some .failed))
    hn rfl ?_ hc (Or.inl hr) fun _ _ => rfl).imp ?_
  · intro id hid k hk hi hp
    have ha : Awaits k id ↔ Awaits m id := by rw [Awaits, Awaits, hp]
    apply (leads_settleDisk (h := h) kind hk.sound (hk.standing id)).imp
    rintro _ l ⟨hv, ⟨hna, hpl, hl⟩ | ⟨haw, hl⟩⟩
    · exact ⟨hv, by rwa [hl], Or.inl ⟨fun h => hna (ha.mpr h), hpl.trans hp⟩⟩
    · split at hl
      · rename_i hkind
        refine ⟨hv, by rwa [hl.2], Or.inr ⟨ha.mp haw, ?_⟩⟩
        rw [if_pos hkind]
        exact hl.1
      · rename_i hkind
        refine ⟨hv, Or.inr ⟨hkind, hl.2, fun hu => hu id hid (ha.mp haw)⟩,
          Or.inr ⟨ha.mp haw, ?_⟩⟩
        rw [if_neg hkind]
        exact hl.1
  · rintro _ k ⟨hk, hm, hi, hq⟩
    have hunasked : kind ≠ .prep → Unasked k h := by
      intro hkind id hid
      rw [hm.same.disks] at hid
      rcases hq id hid with ⟨hna, hp⟩ | ⟨-, hl⟩
      · unfold Awaits at hna ⊢
        rwa [hp]
      · rw [if_neg hkind] at hl
        exact Resolved.not_awaits hl
    refine ⟨hk, hm, ?_, fun hf => hunasked (hfinal hf), ?_, fun hd => ?_⟩
    · intro id hid
      rcases hq id hid with ⟨-, hp⟩ | ⟨ha, hl⟩
      · exact Or.inl hp
      · split at hl
        · exact Or.inr (Or.inl ⟨ha, hl⟩)
        · exact Or.inr (Or.inr hl)
    · rcases hi with e | ⟨-, e, -⟩
      · exact fun ha => by cases e.symm.trans ha
      · exact e
    · rcases hi with e | ⟨hkind, -, hu⟩
      · cases e.symm.trans hd
      · exact Or.inr ⟨hu, hunasked hkind⟩

theorem leads_onReply (hn : n.Hosted) (hc : Conversing [] n m) (packet : Packet) :
    Leads (onReply h packet) m (fun _ k => Conversing [] n k ∧ Concerns h m k ∧
      Answered packet.kind h m k ∧ Overheard packet h m k) fail := by
  have hfails : ∀ words l, Conversing [] n l → Concerns h m l →
      (∀ {k}, Spares h l k → Overheard packet h m k) →
      Leads (hostFailed h words) l (fun _ k => Conversing [] n k ∧ Concerns h m k ∧
        Answered packet.kind h m k ∧ Overheard packet h m k) fail := by
    intro words l hl hm hover
    apply (leads_hostFailed hn hl words).imp
    rintro _ k ⟨hk, hlk, hidle, hdone⟩
    have hmk := hm.trans hlk.toConcerns
    refine ⟨hk, hmk, ⟨fun id hid => Or.inr (Or.inr (hidle id ?_)), fun _ => hidle.unasked,
      hdone.not_active, fun _ => Or.inl hidle⟩, hover hlk⟩
    rwa [hmk.same.disks]
  simp only [onReply, setHost, leads_bind, leads_modify, leads_get]
  have hk := hc.setState h .ready
  have hm := Spares.setState h m .ready
  split
  · exact hfails _ _ hk hm.toConcerns fun hlk => (hm.trans hlk).overheard
  · rename_i lines hlines
    simp only [leads_bind]
    apply (leads_takeLines hk _ _).imp
    rintro words l ⟨hl, hkl⟩
    have hml := hm.toConcerns.trans hkl.concerns
    cases words with
    | some words => exact hfails _ l hl hml fun hlk => hkl.overheard hm hlines hlk
    | none =>
      have hf : ∀ x : Host,
          ({ x with features := some (x.features.getD {}) } : Host).name = x.name ∧
            ({ x with features := some (x.features.getD {}) } : Host).disks = x.disks :=
        fun _ => ⟨rfl, rfl⟩
      have hls : Spares h l (l.setHost h _) := .setHost hf
      simp only [leads_bind, leads_modify, leads_get]
      refine (leads_settleAll hn (hl.setHost hf) packet.kind ?_).imp ?_
      · refine host_setHost_cases (P := fun x => x.state = .ready) ?_ ?_ <;>
          exact hkl.state.trans (state_setHost (P := (· = .ready)) m h rfl rfl)
      · rintro _ x ⟨hx, hlx, ha⟩
        have hmx := (hml.trans hls.toConcerns)
        exact ⟨hx, hmx.trans hlx.toConcerns, ha.congr hmx.same fun id => hkl.place id,
          hkl.overheard hm hlines (hls.trans hlx)⟩

end Planning

end NightlyBackup
