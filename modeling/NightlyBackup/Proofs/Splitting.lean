import NightlyBackup.Proofs.Entering
import NightlyBackup.Proofs.ReplyText
import NightlyBackup.Proofs.Settling

/-!
Replies in parts. Every part of a reply moves the disks of the host that wait for it to the tail of
the partial queue, and the final packet takes them from there. What comes of a disk in the end
depends on what was told about it, and not on how far it had come along; and the disks are resolved
in the order in which the host has them, whatever queue each is taken from. So a host that answers
in parts is left as it would be by one packet that says all the same lines.
-/

namespace NightlyBackup

open Night Planning

variable {n m k : Night} {h id : Nat} {ids : List Nat} {source : QueueName}
  {lines : List ReplyLine}

theorem Night.Undisturbed.expects (hu : Undisturbed h m k) (he : Expects m id source) :
    Expects k id source :=
  he.congr (hu.progress id) (hu.place id)

theorem Night.Undisturbed.quiet (hu : Undisturbed h m k) (hq : Quiet m id) : Quiet k id := by
  rwa [Quiet, hu.progress]

/-! ## Two nights that are as good as the same -/

/-- The records in `ids` await an answer in both nights, but in `k` some of them may have got
further. Apart from that the nights are the same. -/
structure Ahead (ids : List Nat) (m k : Night) : Prop where
  sound : m.Sound
  sound' : k.Sound
  rest : { k with plans := m.plans, queues := m.queues } = m
  records : k.plans.length = m.plans.length
  plan : ∀ id, (k.plan id).withProgress (m.plan id).progress = m.plan id
  progress : ∀ id, id ∉ ids → (k.plan id).progress = (m.plan id).progress
  expects : ∀ id ∈ ids, ∃ source source', Expects m id source ∧ Expects k id source'
  order : ∀ name, (k.queues.members name).filter (· ∉ ids) =
    (m.queues.members name).filter (· ∉ ids)

namespace Ahead

theorem refl (hs : m.Sound) (he : ∀ id ∈ ids, ∃ source, Expects m id source) : Ahead ids m m where
  sound := hs
  sound' := hs
  rest := rfl
  records := rfl
  plan _ := rfl
  progress _ _ := rfl
  expects id hid := by
    obtain ⟨source, he⟩ := he id hid
    exact ⟨source, source, he, he⟩
  order _ := rfl

theorem hosts (ha : Ahead ids m k) : k.hosts = m.hosts := congrArg (·.hosts) ha.rest

theorem host (ha : Ahead ids m k) (h : Nat) : k.host h = m.host h := by
  simp only [Night.host, ha.hosts]

theorem diskName (ha : Ahead ids m k) (id : Nat) : k.diskName id = m.diskName id :=
  congrArg (·.disk.name) (ha.plan id)

theorem question (ha : Ahead ids m k) (id : Nat) :
    (k.plan id).question = (m.plan id).question :=
  congrArg (·.question) (ha.plan id)

theorem quiet (ha : Ahead ids m k) (hid : id ∉ ids) (hq : Quiet m id) : Quiet k id := by
  rwa [Quiet, ha.progress id hid]

/-- When no record awaits an answer any more the nights are the same. -/
theorem eq_of_nil (ha : Ahead [] m k) : k = m := by
  have hplans : k.plans = m.plans := by
    refine List.ext_getElem ha.records fun i hi hi' => ?_
    have hi := ha.plan i
    rw [← ha.progress i List.not_mem_nil] at hi
    simpa [Night.plan, List.getD_eq_getElem?_getD, *] using hi
  have hqueues : k.queues = m.queues := by
    refine ha.sound.valid.ext ha.sound'.valid ?_ fun name => by simpa using ha.order name
    rw [ha.sound.registered, ha.sound'.registered, ha.records]
  have hrest := ha.rest
  rwa [← hplans, ← hqueues] at hrest

/-- The same is done about a host in both nights. -/
theorem setHost (ha : Ahead ids m k) (h : Nat) (f : Host → Host) :
    Ahead ids (m.setHost h f) (k.setHost h f) where
  sound := ha.sound.setHost h f
  sound' := ha.sound'.setHost h f
  rest := congrArg (·.setHost h f) ha.rest
  records := ha.records
  plan := ha.plan
  progress := ha.progress
  expects id hid := by
    obtain ⟨source, source', he, he'⟩ := ha.expects id hid
    exact ⟨source, source', he.congr rfl rfl, he'.congr rfl rfl⟩
  order := ha.order

/-- The same is told about a disk in both nights. -/
theorem setPlan {f : DiskPlan → DiskPlan} (ha : Ahead ids m k) (hf : DiskPlan.Enters f)
    (id : Nat) : Ahead ids (m.setPlan id f) (k.setPlan id f) := by
  have hm : Undisturbed 0 m (m.setPlan id f) := undisturbed_setPlan hf
  have hk : Undisturbed 0 k (k.setPlan id f) := undisturbed_setPlan hf
  refine ⟨ha.sound.setPlan f, ha.sound'.setPlan f, congrArg (·.setPlan id f) ha.rest,
    by simpa using ha.records, fun j => ?_, fun j hj => ?_, fun j hj => ?_, ha.order⟩
  · rw [hm.progress]
    by_cases hj : j = id
    · subst hj
      by_cases hlt : j < m.plans.length
      · rw [plan_setPlan_self hlt, plan_setPlan_self (ha.records ▸ hlt), ← hf.progress, ha.plan]
      · have hle := Nat.le_of_not_lt hlt
        rw [plan_of_le (n := k.setPlan j f) (by simpa [ha.records] using hle),
          plan_of_le (n := m.setPlan j f) (by simpa using hle), plan_of_le hle]
        rfl
    · rw [plan_setPlan_of_ne hj, plan_setPlan_of_ne hj, ha.plan]
  · rw [hm.progress, hk.progress, ha.progress j hj]
  · obtain ⟨source, source', he, he'⟩ := ha.expects j hj
    exact ⟨source, source', hm.expects he, hk.expects he'⟩

theorem enterLine (ha : Ahead ids m k) (h : Nat) (line : ReplyLine) :
    Ahead ids (m.enterLine h line) (k.enterLine h line) :=
  enterLine_both (R := Ahead ids) line (by rw [ha.host]) ha.diskName ha
    (fun _ => ha.setHost h _) fun id _ hf => ha.setPlan hf id

theorem enterLines (ha : Ahead ids m k) (h : Nat) (lines : List ReplyLine) :
    Ahead ids (m.enterLines h lines) (k.enterLines h lines) := by
  induction lines generalizing m k with
  | nil => exact ha
  | cons line lines ih => exact ih (ha.enterLine h line)

/-- A record that awaits an answer gets further in the one night. -/
theorem moveOn (ha : Ahead ids m k) (hid : id ∈ ids) (he : Expects k id source) :
    Ahead ids m (k.movedOn id source .partialEstimate (k.plan id).partlyTold) := by
  have hs := ha.sound'
  have hp := he.place
  refine ⟨ha.sound, hs.movedOn hp, ha.rest, by simpa [movedOn] using ha.records, fun j => ?_,
    fun j hj => ?_, fun j hj => ?_, fun name => ?_⟩
  · by_cases hj : j = id
    · subst hj
      rw [plan_movedOn_self hs hp]
      exact ha.plan j
    · rw [plan_movedOn_of_ne hj, ha.plan]
  · have hne : j ≠ id := fun e => hj (e ▸ hid)
    rw [plan_movedOn_of_ne hne, ha.progress j hj]
  · obtain ⟨source₁, source₂, he₁, he₂⟩ := ha.expects j hj
    by_cases hji : j = id
    · subst hji
      refine ⟨source₁, .partialEstimate, he₁, .answering ?_ ?_⟩
      · rw [plan_movedOn_self hs hp]
        rfl
      · rw [place_movedOn hs hp, if_pos rfl]
    · refine ⟨source₁, source₂, he₁, he₂.congr ?_ ?_⟩
      · rw [plan_movedOn_of_ne hji]
      · rw [place_movedOn hs hp, if_neg hji]
  · rw [members_movedOn hs hp, List.filter_append, List.filter_filter, ← ha.order]
    have htail : (if name = .partialEstimate then [id] else []).filter (· ∉ ids) = [] := by
      split <;> simp [hid]
    rw [htail, List.append_nil]
    refine List.filter_congr fun j _ => ?_
    by_cases hj : j ∈ ids
    · simp [hj]
    · have hne : j ≠ id := fun e => hj (e ▸ hid)
      simp [hj, hne]

/-- A record that awaits an answer is moved to the same place in both nights. -/
theorem moveBoth (ha : Ahead ids m k) {source' : QueueName} (hid : id ∈ ids)
    (he : Expects m id source) (he' : Expects k id source') (target : QueueName) (p : DiskPlan) :
    Ahead (ids.filter (· ≠ id)) (m.movedOn id source target p)
      (k.movedOn id source' target p) := by
  have hs := ha.sound
  have hs' := ha.sound'
  have hp := he.place
  have hp' := he'.place
  have hleft : ∀ {j}, j ∉ ids.filter (· ≠ id) ↔ j = id ∨ j ∉ ids := by
    intro j
    by_cases hj : j = id <;> simp [hj]
  refine ⟨hs.movedOn hp, hs'.movedOn hp', ?_, by simpa [movedOn] using ha.records, fun j => ?_,
    fun j hj => ?_, fun j hj => ?_, fun name => ?_⟩
  · exact congrArg (fun n : Night => n.movedOn id source target p) ha.rest
  · by_cases hj : j = id
    · subst hj
      rw [plan_movedOn_self hs hp, plan_movedOn_self hs' hp']
      rfl
    · rw [plan_movedOn_of_ne hj, plan_movedOn_of_ne hj, ha.plan]
  · by_cases hji : j = id
    · subst hji
      rw [plan_movedOn_self hs hp, plan_movedOn_self hs' hp']
    · rw [plan_movedOn_of_ne hji, plan_movedOn_of_ne hji,
        ha.progress j ((hleft.mp hj).resolve_left hji)]
  · obtain ⟨hj, hji⟩ := List.mem_filter.mp hj
    have hji : j ≠ id := by simpa using hji
    obtain ⟨source₁, source₂, he₁, he₂⟩ := ha.expects j hj
    refine ⟨source₁, source₂, he₁.congr ?_ ?_, he₂.congr ?_ ?_⟩
    · rw [plan_movedOn_of_ne hji]
    · rw [place_movedOn hs hp, if_neg hji]
    · rw [plan_movedOn_of_ne hji]
    · rw [place_movedOn hs' hp', if_neg hji]
  · have hrest : ∀ l : List Nat, (l.filter (· ≠ id)).filter (· ∉ ids.filter (· ≠ id)) =
        l.filter (· ∉ ids) := by
      intro l
      rw [List.filter_filter]
      refine List.filter_congr fun j _ => ?_
      by_cases hji : j = id
      · simp [hji, hid]
      · simp [hji]
    rw [members_movedOn hs hp, members_movedOn hs' hp', List.filter_append, List.filter_append,
      hrest, hrest, ha.order]

/-- A record that awaits an answer is resolved in both nights. -/
theorem resolve (ha : Ahead ids m k) {source' : QueueName} (hid : id ∈ ids)
    (he : Expects m id source) (he' : Expects k id source') (h : Nat) :
    Ahead (ids.filter (· ≠ id)) (m.resolve h id source) (k.resolve h id source') := by
  have houtcome : (m.plan id).outcome = (k.plan id).outcome := by
    rw [← ha.plan id]
    rfl
  have hresolved : ∀ name, (m.plan id).resolved name = (k.plan id).resolved name := fun name => by
    rw [← ha.plan id]
    rfl
  rw [Night.resolve, Night.resolve, houtcome, hresolved, ha.host]
  exact (ha.moveBoth hid he he' _ _).setHost h _

end Ahead

namespace Planning

/-- A part of a reply only takes disks that await an answer further. -/
theorem leads_settle_part {disks : List Nat} (ha : Ahead ids m k)
    (hq : ∀ id ∈ disks, id ∉ ids → Quiet m id) :
    Leads (disks.forM (settleDisk h .prep)) k (fun _ l => Ahead ids m l) never := by
  refine leads_forM_keeps (I := fun l => Ahead ids m l) (fun id hid l hl => ?_) ha
  by_cases hmem : id ∈ ids
  · obtain ⟨-, source, -, he⟩ := hl.expects id hmem
    exact leads_of_ok (settleDisk_part hl.sound' he) (hl.moveOn hmem he)
  · exact leads_of_ok (settleDisk_of_quiet (hl.quiet hmem (hq id hid hmem))) hl

/-- A final packet resolves all disks that await an answer, and so it leaves the same night. -/
theorem exists_settle_final {disks : List Nat} (ha : Ahead ids m k) (hsub : ids ⊆ disks)
    (hq : ∀ id ∈ disks, id ∉ ids → Quiet m id) :
    ∃ l, disks.forM (settleDisk h .rep) m = .ok () l ∧
      disks.forM (settleDisk h .rep) k = .ok () l := by
  induction disks generalizing ids m k with
  | nil =>
    obtain rfl : ids = [] := List.subset_nil.mp hsub
    exact ⟨m, rfl, by rw [ha.eq_of_nil]; rfl⟩
  | cons id disks ih =>
    have hstep : ∀ {m' k' : Night}, settleDisk h .rep id m = .ok () m' →
        settleDisk h .rep id k = .ok () k' →
        (∃ l, disks.forM (settleDisk h .rep) m' = .ok () l ∧
          disks.forM (settleDisk h .rep) k' = .ok () l) →
        ∃ l, (id :: disks).forM (settleDisk h .rep) m = .ok () l ∧
          (id :: disks).forM (settleDisk h .rep) k = .ok () l := by
      rintro m' k' hm hk ⟨l, hl, hl'⟩
      exact ⟨l, (bind_of_ok hm).trans hl, (bind_of_ok hk).trans hl'⟩
    by_cases hmem : id ∈ ids
    · obtain ⟨source, source', he, he'⟩ := ha.expects id hmem
      refine hstep (settleDisk_final ha.sound he) (settleDisk_final ha.sound' he')
        (ih (ha.resolve hmem he he' h) (fun j hj => ?_) fun j hj hleft => ?_)
      · obtain ⟨hj, hne⟩ := List.mem_filter.mp hj
        exact (List.mem_cons.mp (hsub hj)).resolve_left (by simpa using hne)
      · refine quiet_resolve ha.sound he fun hne => hq j (List.mem_cons_of_mem _ hj) fun hj => ?_
        exact hleft (by simp [hj, hne])
    · have hquiet := hq id (List.mem_cons_self ..) hmem
      refine hstep (settleDisk_of_quiet hquiet) (settleDisk_of_quiet (ha.quiet hmem hquiet))
        (ih ha (fun j hj => ?_) fun j hj => hq j (List.mem_cons_of_mem _ hj))
      exact (List.mem_cons.mp (hsub hj)).resolve_left fun e => hmem (e ▸ hj)

end Planning

/-! ## Replies in parts -/

/-- What is entered in `m` only has been taken in `k` as parts of a reply. In both nights the
records `ids` await the rest, and nothing is to be done about the other disks of the host. -/
structure InParts (h : Nat) (ids : List Nat) (m k : Night) : Prop where
  ahead : Ahead ids (m.setHost h Host.heard) (k.setHost h Host.heard)
  awaiting : ids ⊆ (m.host h).disks
  quiet : ∀ id ∈ (m.host h).disks, id ∉ ids → Quiet m id

namespace InParts

variable {packet : Packet} {body : String}

/-- Before the first part. -/
theorem begin (hc : Conversing [] n m) (h : Nat) : ∃ ids, InParts h ids m m := by
  classical
  let ids := (m.host h).disks.filter fun id => ∃ source, Expects m id source
  refine ⟨ids, .refl (hc.sound.setHost h _) fun id hid => ?_,
    fun id hid => (List.mem_filter.mp hid).1, ?_⟩
  · obtain ⟨source, he⟩ : ∃ source, Expects m id source := by
      simpa using (List.mem_filter.mp hid).2
    exact ⟨source, undisturbed_heard.expects he⟩
  · intro id hid hout
    refine (hc.expects_or_quiet id).resolve_left fun he => hout ?_
    exact List.mem_filter.mpr ⟨hid, by simpa using he⟩

theorem disks (hp : InParts h ids m k) : (k.host h).disks = (m.host h).disks := by
  rw [← (undisturbed_heard (h := h) (m := k)).disks, hp.ahead.host, undisturbed_heard.disks]

/-- What may be said in the one night may be said in the other. -/
theorem tells (hp : InParts h ids m k) (hs : packet.Tells m h lines) : packet.Tells k h lines :=
  ⟨hs.reply, hs.read, fun line hline =>
    (hs.accepted line hline).congr hp.disks fun id => hp.ahead.question id⟩

theorem entered (hp : InParts h ids m k) (lines : List ReplyLine) :
    Ahead ids ((m.enterLines h lines).setHost h Host.heard)
      ((k.setHost h Host.heard).enterLines h lines) := by
  rw [← enterLines_heard]
  exact hp.ahead.enterLines h lines

theorem quiet_entered (hp : InParts h ids m k) (lines : List ReplyLine) :
    ∀ id ∈ (m.host h).disks, id ∉ ids → Quiet (m.enterLines h lines) id := by
  exact fun id hid hout => (undisturbed_enterLines lines).quiet (hp.quiet id hid hout)

/-- One more part. -/
theorem part (hp : InParts h ids m k) (hs : (Packet.mk .prep body).Tells m h lines) :
    ∃ l, onReply h ⟨.prep, body⟩ k = .ok () l ∧ InParts h ids (m.enterLines h lines) l := by
  have hdisks := (undisturbed_enterLines (h := h) (m := m) lines).disks
  have hsettled := leads_settle_part (h := h) (hp.entered lines) (hp.quiet_entered lines)
  obtain ⟨_, l, hl, hahead⟩ := hsettled.exists_ok
  refine ⟨l, ?_, ?_, ?_, ?_⟩
  · rw [onReply_tells (hp.tells hs), hp.disks]
    exact hl
  · rw [← heard_heard]
    exact hahead.setHost h Host.heard
  · rw [hdisks]
    exact hp.awaiting
  · rw [hdisks]
    exact hp.quiet_entered lines

/-- All parts but the last. What they say can be read, and it is entered. -/
theorem parts {parts : List String} (hp : InParts h ids m k)
    (hs : ∀ body ∈ parts, ∃ lines, (Packet.mk .prep body).Tells m h lines) :
    ∃ said l, parts.mapM readReply = .ok said ∧
      (∀ line ∈ said.flatten, m.Accepts h .prep line) ∧
      parts.forM (fun body => onReply h ⟨.prep, body⟩) k = .ok () l ∧
      InParts h ids (m.enterLines h said.flatten) l := by
  induction parts generalizing m k with
  | nil => exact ⟨[], k, rfl, by simp, rfl, hp⟩
  | cons body parts ih =>
    obtain ⟨⟨lines, hbody⟩, hrest⟩ := List.forall_mem_cons.mp hs
    obtain ⟨l, hl, hpart⟩ := hp.part hbody
    have hentered := undisturbed_enterLines (h := h) (m := m) lines
    obtain ⟨said, f, hread, haccepted, hf, hparts⟩ := ih hpart fun body hmem => by
      obtain ⟨more, hmore⟩ := hrest body hmem
      exact ⟨more, hentered.tells hmore⟩
    refine ⟨lines :: said, f, ?_, fun line hline => ?_, (bind_of_ok hl).trans hf, ?_⟩
    · rw [List.mapM_cons, hbody.read, hread]
      rfl
    · rw [List.flatten_cons, List.mem_append] at hline
      refine hline.elim (hbody.accepted line) fun hmem => ?_
      exact (haccepted line hmem).congr hentered.disks.symm fun id => (hentered.question id).symm
    · rwa [List.flatten_cons, enterLines_append]

/-- The final packet leaves the night that it would leave if everything had been said in it. -/
theorem final (hp : InParts h ids m k) (hs : (Packet.mk .rep body).Tells m h lines) :
    ∃ l, onReply h ⟨.rep, body⟩ k = .ok () l ∧ (m.host h).disks.forM (settleDisk h .rep)
      ((m.setHost h Host.heard).enterLines h lines) = .ok () l := by
  have hsettled := exists_settle_final (h := h) (hp.entered lines) hp.awaiting
    (hp.quiet_entered lines)
  obtain ⟨l, hm, hk⟩ := hsettled
  rw [← enterLines_heard] at hm
  refine ⟨l, ?_, hm⟩
  rw [onReply_tells (hp.tells hs), hp.disks]
  exact hk

end InParts

/-- A whole reply says what its parts say. -/
theorem Packet.tells_whole {parts : List String} {said : List (List ReplyLine)} {last : String}
    (hread : parts.mapM readReply = .ok said)
    (haccepted : ∀ line ∈ said.flatten, m.Accepts h .prep line)
    (hlast : (Packet.mk .rep last).Tells m h lines) :
    (Packet.mk .rep (Text.joinWith "\n" (parts ++ [last]))).Tells m h (said.flatten ++ lines) := by
  refine ⟨by simp, ?_, fun line hline => ?_⟩
  · rw [readReply_joinWith, List.mapM_append, hread, List.mapM_cons, hlast.read, List.mapM_nil]
    change Except.ok (said ++ [lines]).flatten = _
    simp
  · rcases List.mem_append.mp hline with hsaid | hmore
    · exact (haccepted line hsaid).whole
    · exact hlast.accepted line hmore

/-- What has been entered tells what becomes of the disks that awaited the packet. -/
theorem resolved_as_told (hn : n.Hosted) (hc : Conversing [] n m)
    (hwhole : (m.host h).disks.forM (settleDisk h .rep)
      ((m.enterLines h lines).setHost h Host.heard) = .ok () k) :
    ∀ id ∈ (m.host h).disks, Awaits m id →
      k.place id = some ((m.enterLines h lines).plan id).outcome ∧
        k.plan id = ((m.enterLines h lines).plan id).resolved (m.host h).name := by
  intro id hid ha
  obtain ⟨ids, hp⟩ := InParts.begin hc h
  obtain ⟨source, he⟩ := hc.expects ha
  have hu : Undisturbed h m ((m.enterLines h lines).setHost h Host.heard) :=
    (undisturbed_enterLines lines).trans undisturbed_heard
  have hsettled := leads_settle_final (h := h) ((hc.same.hosted hn).nodup h)
    (hp.entered lines).sound fun id _ =>
      (hc.expects_or_quiet id).imp (fun ⟨source, he⟩ => ⟨source, hu.expects he⟩) hu.quiet
  have hresolved := hsettled.reached hwhole id hid source (hu.expects he)
  rwa [hu.hostName] at hresolved

/-- **Replies in parts.** A host that answers in parts, none of which it fails with, leaves the same
night as if it had said all their lines in one final packet: the same plans with sizes, answers,
faults and progress, the same entry of the host, and the same queues in the same order. All lines
are entered, and by what they have told each disk that awaited the packet is estimated or fails. -/
theorem parts_as_whole {settings : Settings} {disks : List Disk} {rotation : Rotation} {today : Int}
    {store : Store} {n₀ : Night} {t : Talks}
    (hbegin : Night.begin settings disks rotation today = .ok n₀)
    (hprepare : prepareAll store n₀ = .ok () n) (hreached : Reached n m t) {h : Nat}
    {parts : List String} {last : String}
    (hparts : ∀ body ∈ parts, ∃ lines, (Packet.mk .prep body).Tells m h lines)
    (hlast : ∃ lines, (Packet.mk .rep last).Tells m h lines) :
    ∃ k lines, readReply (Text.joinWith "\n" (parts ++ [last])) = .ok lines ∧
      (do
        parts.forM fun body => onReply h ⟨.prep, body⟩
        onReply h ⟨.rep, last⟩) m = .ok () k ∧
      onReply h ⟨.rep, Text.joinWith "\n" (parts ++ [last])⟩ m = .ok () k ∧
      ∀ id ∈ (m.host h).disks, Awaits m id →
        k.place id = some ((m.enterLines h lines).plan id).outcome ∧
        k.plan id = ((m.enterLines h lines).plan id).resolved (m.host h).name := by
  have hfresh := fresh_of_begin hbegin
  have hsetUp := (leads_prepareAll hfresh store).ok hprepare
  have hn := hsetUp.same.hosted hfresh.hosted
  have hm := (hreached.inTurn hn (.begin hfresh hsetUp)).conversing
  obtain ⟨ids, hp⟩ := InParts.begin hm h
  obtain ⟨lines, hlines⟩ := hlast
  obtain ⟨said, l, hread, haccepted, hl, hp⟩ := hp.parts hparts
  have hentered := undisturbed_enterLines (h := h) (m := m) said.flatten
  obtain ⟨k, hk, hwhole⟩ := hp.final (hentered.tells hlines)
  have hall := Packet.tells_whole hread haccepted hlines
  rw [hentered.disks, enterLines_heard, ← enterLines_append] at hwhole
  refine ⟨k, _, hall.read, (bind_of_ok hl).trans hk, ?_, resolved_as_told hn hm hwhole⟩
  rw [onReply_tells hall, enterLines_heard]
  exact hwhole

set_option synthInstance.maxSize 256 in
/-- A host was asked for the sizes of two disks. It tells the size of the one in a first part, and
in the final packet that the other one has none. -/
theorem parts_as_whole_of_two : ∃ n₀ n m t k,
    Night.begin {} [Disk.plain "alpha" "/home" 10 default, Disk.plain "alpha" "/srv" 10 default]
      default 0 = .ok n₀ ∧
    prepareAll {} n₀ = .ok () n ∧ Reached n m t ∧ 0 ∈ t.running ∧
    (do
      ["/home 0 SIZE 7\n"].forM fun body => onReply 0 ⟨.prep, body⟩
      onReply 0 ⟨.rep, "/srv 0 SIZE -2\n/srv 0 ERROR gone\n"⟩) m = .ok () k ∧
    onReply 0 ⟨.rep, "/home 0 SIZE 7\n\n/srv 0 SIZE -2\n/srv 0 ERROR gone\n"⟩ m = .ok () k ∧
    k.queues.estimated = [0] ∧ k.queues.failed = [1] := by
  obtain ⟨n₀, hbegin, hrun⟩ : ∃ n₀, Night.begin {}
        [Disk.plain "alpha" "/home" 10 default, Disk.plain "alpha" "/srv" 10 default]
        default 0 = .ok n₀ ∧
      Leads (prepareAll {}) n₀ (fun _ n => n.hosts.length = 1 ∧
        Leads (do
            let _ ← (Turn.ask 0).act
            let _ ← (Turn.packet 0 ⟨.rep, ""⟩).act
            (Turn.ask 0).act) n
          (fun request m =>
            request.map (·.kind) = some .sizes ∧ (m.host 0).disks = [0, 1] ∧
            m.diskName 0 = "/home" ∧ m.diskName 1 = "/srv" ∧
            Leads (onReply 0
                ⟨.rep, "/home 0 SIZE 7\n\n/srv 0 SIZE -2\n/srv 0 ERROR gone\n"⟩) m
              (fun _ k => k.queues.estimated = [0] ∧ k.queues.failed = [1]) never)
          never) never :=
    ⟨_, rfl, by decide +kernel⟩
  obtain ⟨_, n, hprepare, hhosts, hrun⟩ := hrun.exists_ok
  obtain ⟨request, m, hasked, hkind, hdisks, hhome, hsrv, hrun⟩ := hrun.exists_ok
  obtain ⟨_, a, hprobe, hasked⟩ := ok_of_bind hasked
  obtain ⟨_, b, hprobed, hask⟩ := ok_of_bind hasked
  have hdue : (Talks.begin n).Allows (.ask 0) := by simp [Talks.Allows, Talks.begin, hhosts]
  have hreached := ((Reached.begin.turn hdue hprobe).turn (by trivial) hprobed).turn
    (show 0 ∈ _ by simp [Talks.after, PacketKind.isFinal]) hask
  have hrequest : request.isSome = true := by
    cases request with
    | none => cases hkind
    | some request => rfl
  have hasks : m.AsksFor 0 "/home" 0 ∧ m.AsksFor 0 "/srv" 0 :=
    ⟨⟨0, by simp [hdisks, hhome], Or.inl (Int.le_refl 0)⟩,
      ⟨1, by simp [hdisks, hhome, hsrv], Or.inl (Int.le_refl 0)⟩⟩
  have hfirst : (Packet.mk .prep "/home 0 SIZE 7\n").Tells m 0 [.size "/home" 0 7] :=
    ⟨by decide, rfl, List.forall_mem_singleton.mpr hasks.1⟩
  have hlast : (Packet.mk .rep "/srv 0 SIZE -2\n/srv 0 ERROR gone\n").Tells m 0
      [.size "/srv" 0 (-2), .diskMessage "/srv" 0 "gone"] :=
    ⟨by decide, rfl, by simpa [Night.Accepts] using hasks.2⟩
  obtain ⟨k, _, -, hsplit, hwhole, -⟩ := parts_as_whole hbegin hprepare hreached
    (List.forall_mem_singleton.mpr ⟨_, hfirst⟩) ⟨_, hlast⟩
  have hk := hrun.ok hwhole
  refine ⟨n₀, n, m, _, k, hbegin, hprepare, hreached, ?_, hsplit, hwhole, hk⟩
  simp [Talks.after, hrequest]

end NightlyBackup
