import UbsAtomic.Lock.RemoteRelease

/-! Every run of `lock_x`, `unlock_x` and the message threads.

    Each call is walked through once with the phases of `RemoteRelease`; the soundness of outlines
    then gives exclusion in every reachable configuration.

        lock_x     out ─ word ─ named ─ inside ─┬─ token ── heir ─ cleared ─ signed ─ own
                                                └─ checked ─┬─ taken ─ signed ─ own
                                                            └─ relock ─ again
        unlock_x   own ─┬─ kept ─ inside ─ out         again ─ inside ─ out
                        └─ popped ─ erased ─ inside ─ out
        message    out ─ took ─┬─ freeing ─ disowning ─ giving ─ out
                               └─ out -/

namespace UbsAtomic

open Conc Conc.Prog

namespace RemoteRelease

/-! ### The local lock -/

section Steps

variable {t : Actor} {l : Location} {g : Phase} {keep : Phase → Phase → Prop} {α : Type}
  (hk : ∀ g g', keep g g')

include hk

theorem stable (hg : ∀ ℓ, Stands ℓ g) : outline.Stable t keep SameX AnyLabel g :=
  ⟨fun _ _ _ _ hs ⟨o, ho⟩ => ⟨o, ho.same hs⟩, hg none, fun _ _ => hg _, fun _ _ _ => trivial,
    hk g g⟩

/-- A step of `l` inside the local lock: the memory changes there only. -/
theorem wp_localStore {β : Type} {get : LocalLock → β} {set : β → LocalLock → LocalLock} {v : β}
    {g' : Phase} (hg : g.Local) (hg' : g'.Local) (hc : g' ≠ .checked)
    (ht : ∀ k, (set v k).localIsReserveLock = k.localIsReserveLock)
    (hs : ∀ k γ, γ (.app l) = g → LocalOk k l.nodeId γ →
      LocalOk (set v k) l.nodeId (Function.update γ (.app l) g')) :
    wp outline (.app l) keep (store (Local.field l.nodeId get set) v) (fun _ g'' => g'' = g') g := by
  have hst : ∀ {g₀ : Phase} ℓ, g₀.Local → Stands ℓ g₀ := fun {g₀} ℓ h => by
    cases g₀ <;> first | exact h.elim | trivial
  refine wp_store (hst _ hg) fun s γ hpre => ⟨trivial, g', hk _ _, ?_, hst _ hg', rfl⟩
  obtain ⟨o, ho⟩ := hpre.inv
  exact ⟨o, ho.local_step hpre.own hg hg' (fun e => absurd e hc) (ht _)
    (hs _ _ hpre.own (ho.node _))⟩

theorem wp_localLockTryAcquireX :
    wp outline (.app l) keep (localLockTryAcquireX l.nodeId)
      (fun b g' => if b then g' = .word else g' = .out) .out := by
  refine quiet_load.wp_bind (stable_core (stable hk fun _ => trivial)) fun state => ?_
  split
  · exact ⟨trivial, rfl⟩
  rename_i hidle
  have hzero : state = .zero := by simpa [StateWord.isIdle] using hidle
  refine wp_bind (wp_casWeak trivial fun s γ hpre => ⟨trivial, fun hx => ?_, ?_⟩)
  · obtain ⟨o, ho⟩ := hpre.inv
    refine ⟨.word, hk _ _, ⟨o, ho.local_step hpre.own trivial trivial (by simp) rfl ?_⟩, trivial,
      trivial, rfl⟩
    have hword : (s.ll l.nodeId).lockWord = .zero := hx.trans hzero
    rcases ho.node l.nodeId with ⟨-, h2, h3⟩ | ⟨h1, -⟩
    · refine .inr ⟨rfl, l, rfl, by simp, by simpa [Phase.Names] using h2, fun l' hl' hne => ?_⟩
      simpa [hne] using h3 l' hl'
    · exact absurd (h1.symm.trans hword) (by decide)
  · exact ⟨.out, hk _ _, by rw [hpre.update]; exact hpre.inv, trivial, trivial, rfl⟩

theorem localLockX_meets :
    (LocalLock.lockXLoop l).Meets outline (.app l) keep .out (· = .word) (· = .out)
      (fun r g' => if r = .success then g' = .inside else g' = .out) where
  stable := stable_core (stable hk fun _ => trivial)
  attempt := wp_localLockTryAcquireX hk
  acquired := by
    rintro b slot _ rfl
    have hname : wp outline (.app l) keep (store (Local.lockXOwner l.nodeId) l.tid)
        (fun _ g' => g' = .named) .word :=
      wp_localStore hk trivial trivial (by decide) (fun _ => rfl) fun k γ hγ h =>
        h.step (by simp [hγ]) rfl (by decide) rfl
    have hdepth : wp outline (.app l) keep (store (Local.xRecursive l.nodeId) 1)
        (fun _ g' => g' = .inside) .named :=
      wp_localStore hk trivial trivial (by decide) (fun _ => rfl) fun k γ hγ h =>
        h.step (by simp [hγ]) rfl (by decide) ⟨by
          have := (h.inside (by simp [hγ])).2.1
          rwa [hγ] at this, rfl⟩
    refine wp_bind (wp_mono hname ?_)
    rintro _ _ - rfl
    refine wp_bind (wp_mono hdepth ?_)
    rintro _ _ - rfl
    refine wp_mono ((quiet_ifThen ((localQueue_silent _).popHead slot)).wp
      (stable_core (stable hk fun _ => trivial))) ?_
    rintro _ _ - rfl
    rfl
  announce := ⟨trivial, rfl⟩
  giveUp := ⟨trivial, rfl⟩
  gaveUp := by
    rintro _ rfl
    exact ⟨stable_core (stable hk fun _ => trivial), fun r hr => by simp [hr]⟩

/-- A thread that is not in the local lock is not its recorded owner. -/
theorem wp_localLockX (ht : l.tid ≠ 0) (r : Bool) :
    wp outline (.app l) keep (LocalLock.lockX r l)
      (fun r g' => if r = .success then g' = .inside else g' = .out) .out := by
  refine wp_bind (wp_learn trivial trivial (hk _ _) fun s γ hpre => ⟨trivial, ?_⟩)
  obtain ⟨o, ho⟩ := hpre.inv
  have hne : (s.ll l.nodeId).lockXOwner ≠ l.tid := by
    rcases ho.node l.nodeId with ⟨-, h2, -⟩ | ⟨-, l₀, h2, h3, h4, -⟩
    · rw [h2]
      exact ht.symm
    · have hl : l₀ ≠ l := by
        rintro rfl
        exact h3 hpre.own
      have htid : l₀.tid ≠ l.tid := fun e => hl (by cases l₀; cases l; simp_all)
      cases hγ : γ (.app l₀) <;> simp only [hγ, Phase.Names] at h4 <;>
        first | (rw [h4]; exact ht.symm) | (rw [h4]; exact htid) | (rw [h4.1]; exact htid)
  have hget : (Local.lockXOwner l.nodeId).get s ≠ l.tid := hne
  rw [if_neg hget]
  exact (localLockX_meets hk).wp_run (LocalLock.lockXLoop_waits l)

/-- Leaving the local lock from any phase without X. -/
theorem wp_localUnlockX (hf : g.Full) (hg : g.Local) (r : Bool) :
    wp outline (.app l) keep (LocalLock.unlockX r l) (fun _ g' => g' = .out) g := by
  have hst : ∀ ℓ, Stands ℓ g := fun ℓ => by cases g <;> first | exact hg.elim | trivial
  have hout : g ≠ .out := by rintro rfl; exact hf
  have hnamed : ∀ {k : LocalLock}, g.Names l k → k.lockXOwner = l.tid ∧ k.xRecursive = 1 :=
    fun h => hf.names (show Phase.Full .inside from trivial) h
  refine wp_bind (wp_learn (hst _) (hst _) (hk _ _) fun s γ hpre => ⟨trivial, ?_⟩)
  obtain ⟨o, ho⟩ := hpre.inv
  have hown : (Local.lockXOwner l.nodeId).get s = l.tid := by
    have h2 := ((ho.node l.nodeId).inside (by rw [hpre.own]; exact hout)).2.1
    rw [hpre.own] at h2
    exact (hnamed h2).1
  rw [if_neg (not_not.mpr hown)]
  -- with recursion the depth is popped first; either way its old value is 1
  have hpop : wp outline (.app l) keep
      (if r then LocalLock.popDepth (Local.xRecursive l.nodeId) else pure 1)
      (fun old g' => old = 1 ∧ (g' = g ∨ g' = .named)) g := by
    cases r with
    | false => exact ⟨hst _, rfl, .inl rfl⟩
    | true =>
      rw [if_pos rfl, LocalLock.popDepth, fetch]
      refine wp_rmw (hst _) fun s γ hpre => ?_
      obtain ⟨o, ho⟩ := hpre.inv
      have hin := (ho.node l.nodeId).inside (by rw [hpre.own]; exact hout)
      rw [hpre.own] at hin
      refine ⟨trivial, .named, hk _ _, ⟨o, ho.local_step hpre.own hg trivial (by simp) rfl ?_⟩,
        trivial, (hnamed hin.2.1).2, .inr rfl⟩
      exact (ho.node _).step (by rw [hpre.own]; exact hout) rfl (by decide) (hnamed hin.2.1).1
  have hdepth : ∀ g₀, g₀ = g ∨ g₀ = .named → wp outline (.app l) keep
      (store (Local.xRecursive l.nodeId) 0) (fun _ g' => g' = .named) g₀ := by
    rintro g₀ h₀
    refine wp_localStore hk (by rcases h₀ with rfl | rfl; exacts [hg, trivial]) trivial (by decide)
      (fun _ => rfl) fun k γ hγ h => ?_
    have hne : γ (.app l) ≠ .out := by
      rw [hγ]
      rcases h₀ with rfl | rfl
      exacts [hout, by decide]
    refine h.step hne rfl (by decide) ?_
    have := (h.inside hne).2.1
    rw [hγ] at this
    rcases h₀ with rfl | rfl
    exacts [(hnamed this).1, this]
  have hname : wp outline (.app l) keep (store (Local.lockXOwner l.nodeId) 0)
      (fun _ g' => g' = .word) .named :=
    wp_localStore hk trivial trivial (by decide) (fun _ => rfl) fun k γ hγ h =>
      h.step (by simp [hγ]) rfl (by decide) rfl
  have hword : wp outline (.app l) keep (store (Local.lockWord l.nodeId) .zero)
      (fun _ g' => g' = .out) .word := by
    refine wp_localStore hk trivial trivial (by decide) (fun _ => rfl) fun k γ hγ h => ?_
    obtain ⟨-, h2, h3⟩ := h.inside (by simp [hγ])
    rw [hγ] at h2
    refine .inl ⟨rfl, h2, fun l' hl' => ?_⟩
    by_cases hl : l' = l
    · rw [hl, Function.update_self]
    · simpa [hl] using h3 l' hl' hl
  refine wp_bind (wp_mono hpop ?_)
  rintro _ g₀ - ⟨rfl, h₀⟩
  refine wp_bind (wp_mono (hdepth g₀ h₀) ?_)
  rintro _ _ - rfl
  refine wp_bind (wp_mono hname ?_)
  rintro _ _ - rfl
  refine wp_bind (wp_mono hword ?_)
  rintro _ _ - rfl
  refine (localQueue_silent l.nodeId).load.wp_bind (stable_core (stable hk fun _ => trivial)) fun _ => ?_
  exact (quiet_ifThen (LocalLock.quiet_wakeAfterUnlockExclusive _)).wp_bind
    (stable_core (stable hk fun _ => trivial)) fun _ => ⟨trivial, rfl⟩

/-! ### The global steps of a thread -/

theorem wp_shmStore {β : Type} {get : UbRwLock → β} {set : β → UbRwLock → UbRwLock} {v : β}
    {g' : Phase} (hG : g.Global) (hG' : g'.Global)
    (hr : ∀ k, (set v k).nodeRegistry = k.nodeRegistry ∧ (set v k).lockWord = k.lockWord)
    (hf : ∀ k, g.Facts l k → g'.Facts l (set v k)) :
    wp outline (.app l) keep (store (shmField get set) v) (fun _ g'' => g'' = g') g := by
  refine wp_store (hG.stands _) fun s γ hpre => ⟨trivial, g', hk _ _, ?_, hG'.stands _, rfl⟩
  obtain ⟨o, ho⟩ := hpre.inv
  exact ⟨o, ho.thread_step hpre.own hG hG' rfl rfl (hr _).1 (hr _).2 (hf _)⟩

/-- Writing the owner and the depth makes the thread the holder. -/
theorem wp_sign (hg : g = .taken ∨ g = .cleared) {k : Call α} {Q : α → Phase → Prop}
    (hQ : wp outline (.app l) keep k Q .own) :
    wp outline (.app l) keep (do
      store Shm.lockOwnerX (makeGlobalOwner l)
      store Shm.xRecursive 1
      store (Local.holdGlobal l.nodeId) true
      k) Q g := by
  have howner : wp outline (.app l) keep (store Shm.lockOwnerX (makeGlobalOwner l))
      (fun _ g' => g' = .signed) g := by
    rcases hg with rfl | rfl <;>
      exact wp_shmStore hk trivial trivial (fun _ => ⟨rfl, rfl⟩) fun _ hf => ⟨rfl, hf.2⟩
  have hdepth : wp outline (.app l) keep (store Shm.xRecursive 1) (fun _ g' => g' = .own) .signed :=
    wp_shmStore hk trivial trivial (fun _ => ⟨rfl, rfl⟩) fun _ hf => ⟨hf.1, hf.2, rfl⟩
  refine wp_bind (wp_mono howner ?_)
  rintro _ _ - rfl
  refine wp_bind (wp_mono hdepth ?_)
  rintro _ _ - rfl
  exact (quiet_localStore fun _ => rfl).wp_bind (stable hk fun _ => trivial)
    fun _ => hQ

theorem wp_delayReleaseLocalLock :
    wp outline (.app l) keep (delayReleaseLocalLock .x l)
      (fun r g' => (r = .conflict ∧ g' = .cleared) ∨ (r = .success ∧ g' = .checked)) .inside := by
  have htoken : wp outline (.app l) keep (exchange (Local.localIsReserveLock l.nodeId) .i)
      (fun m g' => (m = .x ∧ g' = .heir) ∨ (m = .i ∧ g' = .checked)) .inside := by
    refine wp_rmw trivial fun s γ hpre => ⟨trivial, ?_⟩
    obtain ⟨o, ho⟩ := hpre.inv
    have htok := ho.token l.nodeId
    by_cases h : o = .token l.nodeId
    · subst h
      exact ⟨.heir, hk _ _, ⟨_, ho.inherit hpre.own⟩, trivial, .inl ⟨htok.trans (if_pos rfl), rfl⟩⟩
    · rw [if_neg h] at htok
      refine ⟨.checked, hk _ _, ⟨o, ho.local_step hpre.own trivial trivial (fun _ => h) htok.symm ?_⟩,
        trivial, .inr ⟨htok, rfl⟩⟩
      exact (ho.node _).step (by rw [hpre.own]; decide) rfl (by decide)
        (Phase.Full.names (g := .inside) trivial trivial (by
          have := ((ho.node l.nodeId).inside (by rw [hpre.own]; decide)).2.1
          rwa [hpre.own] at this))
  refine wp_bind (wp_mono htoken ?_)
  rintro _ _ - (⟨rfl, rfl⟩ | ⟨rfl, rfl⟩)
  · have hclear : wp outline (.app l) keep (store Shm.reserveLockOwner lockInvalidOwner)
        (fun _ g' => g' = .cleared) .heir :=
      wp_shmStore hk trivial trivial (fun _ => ⟨rfl, rfl⟩) fun _ hf => ⟨hf.1, rfl⟩
    refine wp_bind (wp_mono hclear ?_)
    rintro _ _ - rfl
    exact ⟨trivial, .inl ⟨rfl, rfl⟩⟩
  · exact ⟨trivial, .inr ⟨rfl, rfl⟩⟩

theorem wp_takeWordX :
    wp outline (.app l) keep takeWordX (fun b g' => if b then g' = .taken else g' = .checked)
      .checked := by
  refine quiet_load.wp_bind (stable_core (stable hk fun _ => trivial)) fun cur => ?_
  split
  · rename_i hcur
    refine wp_bind (wp_casWeak trivial fun s γ hpre => ⟨trivial, fun hx => ?_, ?_⟩)
    · obtain ⟨o, ho⟩ := hpre.inv
      have hfull : s.shm.lockWord = xLockDecr := hx.trans hcur
      obtain rfl : o = .free := by
        cases o with
        | free => rfl
        | _ => exact absurd (ho.shared.1.symm.trans hfull) (by decide)
      exact ⟨.taken, hk _ _, ⟨_, ho.take hpre.own⟩, trivial, trivial, rfl⟩
    · exact ⟨.checked, hk _ _, by rw [hpre.update]; exact hpre.inv, trivial, trivial, rfl⟩
  · exact ⟨trivial, rfl⟩

/-- Asking for a delayed hold changes nothing: reservations and registered nodes are valid. -/
theorem wp_delayReleaseUbLock (hg : ∀ ℓ, Stands ℓ g) :
    wp outline t keep (delayReleaseUbLock .x l) (fun _ g' => g' = g) g := by
  refine wp_bind (wp_learn (hg _) (hg _) (hk _ _) fun s γ hpre => ⟨trivial, ?_⟩)
  obtain ⟨o, ho⟩ := hpre.inv
  split
  · exact ⟨hg _, rfl⟩
  rename_i hne
  obtain ⟨n, hn⟩ := ho.reserved.resolve_left hne
  have hdec : ∀ h, (⟨Shm.reserveLockOwner.get s / 4294967296 % 256, h⟩ : NodeId) = n :=
    fun h => Fin.ext hn.decode
  simp only [hdec]
  split
  · exact ⟨hg _, rfl⟩
  have hlt : ¬ Shm.reserveLockOwner.get s / 4294967296 % 256 ≥ ubMaxNodes := by
    have hd : Shm.reserveLockOwner.get s / 4294967296 % 256 = n.val := hn.decode
    rw [hd]
    exact Nat.not_le.mpr hn.1
  rw [if_neg hlt]
  refine wp_bind (wp_learn (hg _) (hg _) (hk _ _) fun s' γ' hpre' => ⟨trivial, ?_⟩)
  obtain ⟨o', ho'⟩ := hpre'.inv
  have hreg : (Shm.nodeRegistry n).get s' = ubLockAddr := ho'.registry n hn.1
  rw [hreg, if_neg (by decide), if_neg (by decide)]
  have hquiet : Quiet SameCore Label.Plain
      (notifyUnlock ⟨l.nodeId, n, 0, ubLockAddr, .release, .x⟩) :=
    .bind quiet_load fun _ => .ite trivial (quiet_sendWithRetry _)
  exact hquiet.wp (stable_core (stable hk hg))

/-! ### The calls -/

/-- What `lock_x` with recursion flag `r` leaves behind. -/
def Locked (r : Bool) (res : Result) (g : Phase) : Prop :=
  if res = .success then g = .own ∨ (g = .again ∧ r = true) else g = .out

theorem spinWaitX_meets (r : Bool) :
    (spinWaitLoop gripX r l).Meets outline (.app l) keep .checked (· = .taken) (· = .out) (Locked r) where
  stable := stable_core (stable hk fun _ => trivial)
  attempt := wp_takeWordX hk
  acquired := by
    rintro b slot _ rfl
    refine wp_sign hk (.inl rfl) (wp_mono ((quiet_ifThen (sharedQueue_silent.popHead slot)).wp
      (stable_core (stable (g := .own) hk fun _ => trivial))) ?_)
    rintro _ _ - rfl
    exact .inl rfl
  announce := wp_bind (wp_mono (wp_delayReleaseUbLock hk fun _ => trivial) fun _ _ _ h => by
    subst h
    exact ⟨trivial, rfl⟩)
  giveUp := wp_bind (wp_mono (wp_localUnlockX (g := .checked) hk trivial trivial r) fun _ _ _ h => by
    subst h
    exact ⟨trivial, rfl⟩)
  gaveUp := by
    rintro _ rfl
    exact ⟨stable_core (stable hk fun _ => trivial), fun r hr => by simp [Locked, hr]⟩

/-- The thread reads `lock_owner_x`: with its own identity there, X is loose. -/
theorem wp_ownerLoad (hn : l.nodeId.val < ubMaxNodes) (r : Bool) :
    wp outline (.app l) keep (loadAt (.ownerLoadX r l) Shm.lockOwnerX)
      (fun v g' => if v = makeGlobalOwner l ∧ r = true then g' = .relock else g' = .checked)
      .checked := by
  refine wp_read trivial fun s γ hpre => ⟨trivial, ?_⟩
  obtain ⟨o, ho⟩ := hpre.inv
  by_cases h : Shm.lockOwnerX.get s = makeGlobalOwner l ∧ r = true
  · obtain ⟨hx, rfl⟩ := h
    obtain ⟨ℓ, hℓ, hcond⟩ := hpre.run
    obtain ⟨k, rfl⟩ := ho.loose_of_owner hpre.own hn hx hℓ (hcond l rfl hx)
    exact ⟨.relock, hk _ _, ⟨_, ho.loose_step hpre.own trivial trivial (fun h => h) rfl rfl rfl rfl
      rfl rfl hx fun h => h⟩, trivial, by simp [hx]⟩
  · exact ⟨.checked, hk _ _, by rw [hpre.update]; exact ⟨o, ho⟩, trivial, by simp [h]⟩

theorem wp_raise :
    wp outline (.app l) keep (fetch Shm.xRecursive fun n => u32 (n + 1)) (fun _ g' => g' = .again)
      .relock := by
  rw [fetch]
  refine wp_rmw trivial fun s γ hpre => ⟨trivial, .again, hk _ _, ?_, trivial, rfl⟩
  obtain ⟨o, ho⟩ := hpre.inv
  obtain ⟨⟨k, rfl⟩, hx, hr, -⟩ := ho.loose_depth (by rw [hpre.own]; trivial)
  rw [hpre.own, if_neg (by decide)] at hr
  refine ⟨_, ho.loose_step hpre.own trivial trivial (fun h => h) rfl rfl rfl rfl rfl rfl hx fun _ => ?_⟩
  have hget : Shm.xRecursive.get s = 1 := hr
  simp only [hget]
  rfl

theorem wp_lockX (hn : l.nodeId.val < ubMaxNodes) (ht : l.tid ≠ 0) (p : Policy) :
    wp outline (.app l) keep (lockX p l) (Locked p.recursive) .out := by
  have hnotFound : ∀ s γ, Inv s γ → (registeredAt l.nodeId).get s = true :=
    fun s γ ⟨_, ho⟩ => ho.created _ hn
  rw [lockX, lockExclusive, if_neg (by simpa [verifyParam] using hn)]
  refine wp_bind (wp_learn trivial trivial (hk _ _) fun s γ hpre => ⟨trivial, ?_⟩)
  rw [hnotFound s γ hpre.inv, if_neg (by decide)]
  refine wp_bind (wp_mono (wp_localLockX hk ht p.recursive) fun r g' _ hr => ?_)
  split
  · rename_i hne
    rw [if_neg hne] at hr
    exact ⟨hr ▸ trivial, by simp [Locked, hne, hr]⟩
  rename_i heq
  rw [if_pos (not_not.mp heq)] at hr
  subst hr
  refine wp_bind (wp_mono (wp_delayReleaseLocalLock hk) ?_)
  rintro _ _ - (⟨rfl, rfl⟩ | ⟨rfl, rfl⟩)
  · -- the token is inherited
    exact wp_sign hk (.inr rfl) ⟨trivial, .inl rfl⟩
  rw [if_neg (by decide)]
  refine wp_bind (wp_mono (wp_ownerLoad hk hn p.recursive) fun v g' _ hv => ?_)
  split
  · rename_i hown
    split
    · -- recursion on a loose X
      rename_i hrec
      rw [if_pos ⟨hown, hrec⟩] at hv
      subst hv
      refine (quiet_localStore fun _ => rfl).wp_bind (stable hk fun _ => trivial)
        fun _ => wp_bind (wp_mono (wp_raise hk) ?_)
      rintro _ _ - rfl
      exact ⟨trivial, .inr ⟨rfl, hrec⟩⟩
    · rename_i hrec
      rw [if_neg fun h => hrec h.2] at hv
      subst hv
      refine wp_bind (wp_mono (wp_localUnlockX (g := .checked) hk trivial trivial _) ?_)
      rintro _ _ - rfl
      exact ⟨trivial, rfl⟩
  · rename_i hown
    rw [if_neg fun h => hown h.1] at hv
    subst hv
    exact (spinWaitX_meets hk p.recursive).wp_run (spinWaitLoop_waits gripX _ l)

/-- Only a thread that really has X can leave it as a token. -/
theorem wp_tryDelay (p : Policy) (hn : l.nodeId.val < ubMaxNodes) (hg : g = .own ∨ g = .again) :
    wp outline (.app l) keep (tryDelay p l)
      (fun b g' => if b then g' = .kept else g' = g) g := by
  have hst : ∀ ℓ, Stands ℓ g := fun ℓ => by rcases hg with rfl | rfl <;> trivial
  unfold tryDelay
  split
  · exact ⟨hst _, rfl⟩
  refine sharedQueue_silent.load.wp_bind (stable_core (stable hk hst)) fun _ => ?_
  split
  · exact ⟨hst _, rfl⟩
  refine (localQueue_silent _).load.wp_bind (stable_core (stable hk hst)) fun _ => ?_
  split
  · exact ⟨hst _, rfl⟩
  refine wp_bind (wp_cas (hst _) fun s γ hpre => ⟨trivial, fun hx => ?_, fun _ =>
    ⟨g, hk _ _, by rw [hpre.update]; exact hpre.inv, hst _, hst _, rfl⟩⟩)
  obtain ⟨o, ho⟩ := hpre.inv
  rcases hg with rfl | rfl
  · refine ⟨.kept, hk _ _, ⟨o, ho.thread_step hpre.own trivial trivial rfl rfl rfl rfl fun hf => ?_⟩,
      trivial, trivial, rfl⟩
    exact ⟨hf.1, ⟨_, onNode_self hn⟩, hf.2.2⟩
  · obtain ⟨-, -, -, hv⟩ := ho.loose_depth (l := l) (by rw [hpre.own]; trivial)
    exact absurd hx hv.ne_invalid

/-- The immediate release: X goes back to `lock_word`, a loose X only loses a level. -/
theorem wp_releaseX (p : Policy) (hg : g = .own ∨ (g = .again ∧ p.recursive = true)) :
    wp outline (.app l) keep (releaseX p l) (fun b g' => b = true ∧ g' = .inside) g := by
  have hst : ∀ ℓ, Stands ℓ g := fun ℓ => by rcases hg with rfl | ⟨rfl, -⟩ <;> trivial
  refine wp_bind (wp_learn (hst _) (hst _) (hk _ _) fun s γ hpre => ⟨trivial, ?_⟩)
  obtain ⟨o, ho⟩ := hpre.inv
  have hown : Shm.lockOwnerX.get s = makeGlobalOwner l := by
    rcases hg with rfl | ⟨rfl, -⟩
    · obtain rfl := (ho.fits (.app l)).1.mp (by rw [hpre.own]; trivial)
      have hf := ho.shared.2
      rw [hpre.own] at hf
      exact hf.1
    · exact (ho.loose_depth (by rw [hpre.own]; trivial)).2.1
  rw [if_neg (not_not.mpr hown)]
  have hpop : wp outline (.app l) keep
      (if p.recursive then LocalLock.popDepth Shm.xRecursive else pure 1)
      (fun old g' => (old = 1 ∧ (g' = .own ∨ g' = .popped)) ∨ (old = 2 ∧ g' = .inside)) g := by
    split
    · rw [LocalLock.popDepth, fetch]
      refine wp_rmw (hst _) fun s γ hpre => ⟨trivial, ?_⟩
      obtain ⟨o, ho⟩ := hpre.inv
      rcases hg with rfl | ⟨rfl, -⟩
      · obtain rfl := (ho.fits (.app l)).1.mp (by rw [hpre.own]; trivial)
        have hf := ho.shared.2
        rw [hpre.own] at hf
        have hgood : ∀ v, Good (Shm.xRecursive.set v s) (Function.update γ (.app l) .popped)
            (.thread l) := fun v =>
          ho.thread_step hpre.own trivial trivial rfl rfl rfl rfl fun hf => ⟨hf.1, hf.2.1⟩
        exact ⟨.popped, hk _ _, ⟨_, hgood _⟩, trivial, .inl ⟨hf.2.2, .inr rfl⟩⟩
      · obtain ⟨⟨k, rfl⟩, hx, hr, -⟩ := ho.loose_depth (by rw [hpre.own]; trivial)
        rw [hpre.own, if_pos rfl] at hr
        have hget : Shm.xRecursive.get s = 2 := hr
        have hgood : Good (Shm.xRecursive.set 1 s) (Function.update γ (.app l) .inside)
            (.loose l.nodeId k) :=
          ho.loose_step hpre.own trivial trivial (fun h => h) rfl rfl rfl rfl rfl rfl hx fun _ => rfl
        refine ⟨.inside, hk _ _, ⟨.loose l.nodeId k, ?_⟩, trivial, .inr ⟨hget, rfl⟩⟩
        rw [hget]
        exact hgood
    · rename_i hrec
      obtain rfl := hg.resolve_right fun h => hrec h.2
      exact ⟨trivial, .inl ⟨rfl, .inl rfl⟩⟩
  refine wp_bind (wp_mono hpop ?_)
  rintro old g' - (⟨rfl, hg'⟩ | ⟨rfl, rfl⟩)
  · have hG : g'.Global := by rcases hg' with rfl | rfl <;> trivial
    rw [if_neg (by decide)]
    -- the node has no token while the thread has X
    have htoken : wp outline (.app l) keep (store (Local.localIsReserveLock l.nodeId) .i)
        (fun _ g'' => g'' = g') g' := by
      refine wp_store (hG.stands _) fun s γ hpre => ⟨trivial, g', hk _ _, ?_, hG.stands _, rfl⟩
      obtain ⟨o, ho⟩ := hpre.inv
      obtain rfl := (ho.fits (.app l)).1.mp (by rw [hpre.own]; exact hG)
      rw [hpre.update]
      exact ⟨_, ho.same (.onLocal (by simp [ho.token l.nodeId]))⟩
    have hname : wp outline (.app l) keep (store Shm.lockOwnerX lockInvalidOwner)
        (fun _ g'' => g'' = .erased) g' := by
      rcases hg' with rfl | rfl
      · exact wp_shmStore hk trivial trivial (fun _ => ⟨rfl, rfl⟩) fun _ hf => ⟨rfl, hf.2.1⟩
      · exact wp_shmStore hk trivial trivial (fun _ => ⟨rfl, rfl⟩) fun _ hf => ⟨rfl, hf.2⟩
    have hdepth : wp outline (.app l) keep (store Shm.xRecursive 0)
        (fun _ g'' => g'' = .erased) .erased :=
      wp_shmStore hk trivial trivial (fun _ => ⟨rfl, rfl⟩) fun _ hf => hf
    have hword : wp outline (.app l) keep (store Shm.lockWord xLockDecr)
        (fun _ g'' => g'' = .inside) .erased := by
      refine wp_store trivial fun s γ hpre => ⟨trivial, .inside, hk _ _, ?_, trivial, rfl⟩
      obtain ⟨o, ho⟩ := hpre.inv
      obtain rfl := (ho.fits (.app l)).1.mp (by rw [hpre.own]; trivial)
      exact ⟨_, ho.release hpre.own⟩
    refine wp_bind (wp_mono htoken ?_)
    rintro _ _ - rfl
    refine (quiet_localStore fun _ => rfl).wp_bind (stable hk hG.stands) fun _ => ?_
    refine wp_bind (wp_mono hname ?_)
    rintro _ _ - rfl
    refine wp_bind (wp_mono hdepth ?_)
    rintro _ _ - rfl
    refine wp_bind (wp_mono hword ?_)
    rintro _ _ - rfl
    exact (quiet_wakeIfWaiting l).wp_bind (stable_core (stable hk fun _ => trivial))
      fun _ => ⟨trivial, rfl, rfl⟩
  · rw [if_pos (by decide)]
    exact ⟨trivial, rfl, rfl⟩

theorem wp_unlockX (hn : l.nodeId.val < ubMaxNodes) (p : Policy)
    (hg : g = .own ∨ (g = .again ∧ p.recursive = true)) :
    wp outline (.app l) keep (unlockX p l) (fun _ g' => g' = .out) g := by
  have hst : ∀ ℓ, Stands ℓ g := fun ℓ => by rcases hg with rfl | ⟨rfl, -⟩ <;> trivial
  have hend : wp outline (.app l) keep ((store (Local.globalState l.nodeId) .idle).bind fun _ =>
      LocalLock.unlockX p.recursive l) (fun _ g' => g' = .out) .inside :=
    (quiet_localStore fun _ => rfl).wp_bind (stable hk fun _ => trivial)
      fun _ => wp_localUnlockX (g := .inside) hk trivial trivial _
  rw [unlockX, if_neg (by simpa [verifyParam] using hn)]
  refine wp_bind (wp_learn (hst _) (hst _) (hk _ _) fun s γ hpre => ⟨trivial, ?_⟩)
  obtain ⟨o, ho⟩ := hpre.inv
  have hfound : (registeredAt l.nodeId).get s = true := ho.created _ hn
  rw [hfound, if_neg (by decide)]
  refine wp_bind (wp_mono (wp_tryDelay hk p hn (hg.imp_right And.left)) fun b g' _ hb => ?_)
  cases b with
  | true =>
    obtain rfl : g' = .kept := hb
    have htoken : wp outline (.app l) keep (store (Local.localIsReserveLock l.nodeId) .x)
        (fun _ g' => g' = .inside) .kept := by
      refine wp_store trivial fun s γ hpre => ⟨trivial, .inside, hk _ _, ?_, trivial, rfl⟩
      obtain ⟨o, ho⟩ := hpre.inv
      obtain rfl := (ho.fits (.app l)).1.mp (by rw [hpre.own]; trivial)
      exact ⟨_, ho.leave hn hpre.own⟩
    refine wp_bind (wp_mono htoken ?_)
    rintro _ _ - rfl
    exact (quiet_localStore fun _ => rfl).wp_bind (stable hk fun _ => trivial)
      fun _ => hend
  | false =>
    obtain rfl : g' = g := hb
    refine wp_bind (wp_mono (wp_releaseX hk p hg) ?_)
    rintro _ _ - ⟨rfl, rfl⟩
    exact hend

/-! ### The message thread -/

theorem wp_receive (n : NodeId) :
    wp outline t keep (receive n) (fun m g' => m.dest = n ∧ g' = .out) .out := by
  refine ⟨trivial, fun s γ hpre => ⟨trivial, fun c s' b hf => ⟨.out, hk _ _, ?_, trivial, ?_, rfl⟩⟩⟩
  · rw [hpre.update]
    obtain ⟨o, ho⟩ := hpre.inv
    exact ⟨o, ho.same (.of_core ((quiet_receive n).2.1 s c s' b hf))⟩
  · dsimp only at hf
    split at hf
    · split at hf
      · cases hf
        assumption
      · cases hf
    · cases hf

/-- Giving X back, from the moment the local lock was found free. -/
theorem wp_delayUnlock {n : NodeId} {k : ℕ} (hn : n.val < ubMaxNodes) :
    wp outline (.handler n k) keep (delayUnlock .x n) (fun _ g' => g' = .out) (.freeing n) := by
  have hdepth : wp outline (.handler n k) keep (store Shm.xRecursive 0) (fun _ g' => g' = .giving)
      .giving := by
    refine wp_store trivial fun s γ hpre => ⟨trivial, .giving, hk _ _, ?_, trivial, rfl⟩
    obtain ⟨o, ho⟩ := hpre.inv
    exact ⟨o, ho.free_step hpre.own trivial trivial rfl rfl rfl rfl fun hf => hf⟩
  have hword : wp outline (.handler n k) keep (store Shm.lockWord xLockDecr) (fun _ g' => g' = .out)
      .giving := by
    refine wp_store trivial fun s γ hpre => ⟨trivial, .out, hk _ _, ?_, trivial, rfl⟩
    obtain ⟨o, ho⟩ := hpre.inv
    exact ⟨_, ho.give hpre.own⟩
  rw [delayUnlock, if_neg (Nat.not_le.mpr hn)]
  -- the phase says which labelled store comes next, so these two steps are taken together with it
  refine ⟨rfl, fun s γ hpre => ⟨trivial, fun c s' b hf => ⟨.disowning n, hk _ _, ?_, ?_⟩⟩⟩
  · obtain ⟨o, ho⟩ := hpre.inv
    cases hf
    exact ⟨o, ho.free_step hpre.own rfl rfl rfl rfl rfl rfl fun hf => ⟨hf.1, rfl⟩⟩
  refine ⟨rfl, fun s γ hpre => ⟨trivial, fun c s' b hf => ⟨.giving, hk _ _, ?_, ?_⟩⟩⟩
  · obtain ⟨o, ho⟩ := hpre.inv
    cases hf
    exact ⟨o, ho.free_step hpre.own rfl trivial rfl rfl rfl rfl fun hf => ⟨rfl, hf.2⟩⟩
  refine wp_bind (p := store Shm.xRecursive 0) (wp_mono hdepth ?_)
  rintro _ _ - rfl
  refine wp_bind (wp_mono hword ?_)
  rintro _ _ - rfl
  exact (quiet_wakeIfWaiting _).wp_bind (stable_core (stable hk fun _ => trivial)) fun _ => ⟨trivial, rfl⟩

theorem wp_handleRelease {n : NodeId} {k : ℕ} (hn : n.val < ubMaxNodes) {m : Message}
    (hm : m.dest = n) :
    wp outline (.handler n k) keep (handleRelease n m) (fun _ g' => g' = .out) .out := by
  have hout : outline.Stable (.handler n k) keep SameX AnyLabel .out := stable hk fun _ => trivial
  have hvalid : Quiet SameX AnyLabel (validateReleaseLockPointer n m.addr) :=
    .ite trivial <| .ite trivial <| .bind quiet_loadAt fun _ => trivial
  have hbegin : Quiet SameX AnyLabel (LocalLock.tryBeginRemoteRelease n) :=
    .bind (quiet_localCas fun _ => rfl) fun _ => trivial
  have hend : Quiet SameX AnyLabel (LocalLock.endRemoteRelease n) := quiet_localStore fun _ => rfl
  have htoken : wp outline (.handler n k) keep (exchange (Local.localIsReserveLock n) .i)
      (fun m g' => (m = .i ∧ g' = .out) ∨ (m = .x ∧ g' = .took)) .out := by
    refine wp_rmw trivial fun s γ hpre => ⟨trivial, ?_⟩
    obtain ⟨o, ho⟩ := hpre.inv
    have htok := ho.token n
    by_cases h : o = .token n
    · subst h
      exact ⟨.took, hk _ _, ⟨_, ho.loosen⟩, trivial, .inr ⟨htok.trans (if_pos rfl), rfl⟩⟩
    · refine ⟨.out, hk _ _, ?_, trivial, .inl ⟨htok.trans (if_neg h), rfl⟩⟩
      rw [hpre.update]
      exact ⟨o, ho.same (.onLocal (by simp [htok, h]))⟩
  refine hvalid.wp_bind hout fun valid => ?_
  split
  · exact ⟨trivial, rfl⟩
  refine hbegin.wp_bind hout fun begun => ?_
  split
  · exact ⟨trivial, rfl⟩
  refine wp_bind (wp_mono htoken ?_)
  rintro _ _ - (⟨rfl, rfl⟩ | ⟨rfl, rfl⟩)
  · exact hend.wp hout
  rw [if_neg (by decide)]
  -- what the load of the local word finds decides the next phase
  refine ⟨trivial, fun s γ hpre => ⟨trivial, fun c s' b hf => ?_⟩⟩
  obtain ⟨o, ho⟩ := hpre.inv
  obtain rfl := (ho.fits (.handler n k)).1.mp hpre.own
  obtain ⟨rfl, rfl⟩ : s = s' ∧ (Local.lockWord n).get s = b := by simpa using hf
  by_cases hz : (Local.lockWord n).get s = .zero
  · refine ⟨.freeing n, hk _ _, ⟨_, ho.begin hz⟩, ?_⟩
    have hidle : (!StateWord.isIdle ((Local.lockWord n).get s)) = false := by
      simpa [StateWord.isIdle] using hz
    change wp outline _ keep (if (!StateWord.isIdle ((Local.lockWord n).get s)) = true then _ else _) _ _
    rw [hidle, if_neg (by decide), hm]
    refine wp_bind (wp_mono (wp_delayUnlock hk hn) ?_)
    rintro _ _ - rfl
    exact hend.wp hout
  · refine ⟨.out, hk _ _, ⟨_, ho.drop⟩, ?_⟩
    have hheld : (!StateWord.isIdle ((Local.lockWord n).get s)) = true := by
      simpa [StateWord.isIdle] using hz
    change wp outline _ keep (if (!StateWord.isIdle ((Local.lockWord n).get s)) = true then _ else _) _ _
    rw [hheld, if_pos rfl]
    exact hend.wp hout

theorem wp_messageProcess {n : NodeId} {k : ℕ} (hn : n.val < ubMaxNodes) :
    wp outline (.handler n k) keep (messageProcess n) (fun _ g' => g' = .out) .out := by
  refine wp_bind (wp_mono (wp_receive hk n) ?_)
  rintro m _ - ⟨hm, rfl⟩
  split
  · exact ⟨trivial, rfl⟩
  cases m.type with
  | grant =>
    exact (quiet_notifyLocalWaiter _).wp_bind (stable_core (stable hk fun _ => trivial))
      fun _ => ⟨trivial, rfl⟩
  | unknown => exact ⟨trivial, rfl⟩
  | release => exact wp_handleRelease hk hn hm

end Steps

/-! ### Every run -/

/-- Threads with a non-zero id that take X only when they do not hold it, and give it back with the
    recursion flag they took it with; message threads on every node. A thread's holding is that
    flag. -/
def relockClient : Client Actor Mem Label Op Result (Option Bool) where
  code := callCode
  allowed
    | .app l, h, .lockX _ => l.tid ≠ 0 && l.nodeId.val < ubMaxNodes && h = none
    | .app l, h, .unlockX p => l.tid ≠ 0 && l.nodeId.val < ubMaxNodes && h = some p.recursive
    | .handler n _, _, .handle => n.val < ubMaxNodes
    | _, _, _ => false
  start h
    | .unlockX _ => none
    | _ => h
  finish h
    | .lockX p, .success => some p.recursive
    | _, _ => h

abbrev RelockConfig := Config Actor Mem Label Op Result (Option Bool)

def RelockConfig.init : RelockConfig := ⟨Mem.init, fun _ => none, fun _ => none⟩

theorem proved : spec.Proved relockClient where
  stay := fun _ _ _ _ h => h
  idle := by
    rintro (l | ⟨n, k⟩) (_ | r) g hg
    · exact ⟨(show g = .out from hg) ▸ trivial, .inl rfl⟩
    · refine ⟨?_, .inr hg⟩
      rcases hg with rfl | ⟨rfl, -⟩ <;> trivial
    · exact ⟨hg.2 ▸ trivial, .inl rfl⟩
    · cases hg.1
  start := by
    rintro (l | ⟨n, k⟩) h op g ha hg
    · cases op <;> simp [relockClient] at ha
      · exact .inl ha.2
      · exact .inl rfl
    · obtain ⟨rfl, -⟩ := hg
      cases op <;> exact .inl rfl
  call := by
    have hk : ∀ (t : Actor) (g g' : Phase), spec.moves t none g g' := fun _ _ _ => .inl rfl
    rintro (l | ⟨n, k⟩) h op g ha hg
    · cases op <;> simp [relockClient] at ha
      case lockX p =>
        obtain ⟨⟨ht, hn⟩, rfl⟩ := ha
        obtain rfl : g = .out := hg
        refine wp_mono (wp_lockX (hk _) hn ht p) fun r g' _ hr => ⟨trivial, ?_⟩
        cases r <;> exact hr
      case unlockX p =>
        obtain ⟨⟨ht, hn⟩, rfl⟩ := ha
        refine wp_mono (wp_unlockX (hk _) hn p hg) fun r g' _ hr => ⟨trivial, ?_⟩
        cases r <;> exact hr
    · obtain ⟨rfl, rfl⟩ := hg
      cases op <;> simp [relockClient] at ha
      exact wp_bind (wp_mono (wp_messageProcess (hk _) ha) fun _ _ hl hg' =>
        ⟨hl, trivial, rfl, hg'⟩)

/-- Nobody has X of a fresh lock. -/
theorem holds_init : spec.Holds relockClient RelockConfig.init (fun _ => .out) where
  inv := by
    refine ⟨.free, ?_, ?_, fun n => rfl, ⟨rfl, rfl, rfl⟩, ?_, fun n => .inl ⟨rfl, rfl, fun _ _ => rfl⟩⟩
    · intro n hn
      simpa [RelockConfig.init, Mem.init] using hn
    · intro n hn
      simp [RelockConfig.init, Mem.init, UbRwLock.init, hn]
    · rintro (l | ⟨n, k⟩)
      · exact ⟨⟨fun h => h.elim, nofun⟩, fun h => h.elim, nofun⟩
      · exact ⟨⟨nofun, nofun⟩, fun h => h.elim, nofun⟩
  moved := fun _ => ⟨.out, .inl rfl⟩
  idle := by
    rintro (l | ⟨n, k⟩) -
    · rfl
    · exact ⟨rfl, rfl⟩
  busy := by simp [RelockConfig.init]

/-- A thread that holds X has it, or uses the loose X of its node. -/
theorem Good.eq_of_holding {s : Mem} {γ : Actor → Phase} {o : Own} (h : Good s γ o)
    {l l' : Location} (hl : γ (.app l) = .own ∨ γ (.app l) = .again)
    (hl' : γ (.app l') = .own ∨ γ (.app l') = .again) : l = l' := by
  have hthread : ∀ {i : Location}, γ (.app i) = .own → o = .thread i := fun {i} hi =>
    (h.fits (.app i)).1.mp (by rw [hi]; trivial)
  have hloose : ∀ {i : Location}, γ (.app i) = .again →
      (∃ k, o = .loose i.nodeId k) ∧ s.shm.lockOwnerX = makeGlobalOwner i := fun {i} hi =>
    ⟨(h.loose_depth (by rw [hi]; trivial)).1, (h.loose_depth (by rw [hi]; trivial)).2.1⟩
  rcases hl with hl | hl <;> rcases hl' with hl' | hl'
  · exact Own.thread.inj ((hthread hl).symm.trans (hthread hl'))
  · obtain ⟨k, hk⟩ := (hloose hl').1
    cases (hthread hl).symm.trans hk
  · obtain ⟨k, hk⟩ := (hloose hl).1
    cases (hthread hl').symm.trans hk
  · exact makeGlobalOwner_injective ((hloose hl).2.symm.trans (hloose hl').2)

/-- In every run in which no recursive `lock_x` finds its own identity while a message thread of its
    node is giving X back, at most one thread holds X. -/
theorem exclusion_of_relocksApart {c : RelockConfig}
    (hc : Config.Reach relockClient RelocksApart RelockConfig.init c) {l l' : Location}
    (hl : (c.held (.app l)).isSome) (hl' : (c.held (.app l')).isSome) : l = l' := by
  obtain ⟨γ, hγ⟩ := proved.sound holds_init hc
  obtain ⟨o, ho⟩ := hγ.inv
  have hphase : ∀ {i : Location}, (c.held (.app i)).isSome →
      γ (.app i) = .own ∨ γ (.app i) = .again := fun {i} hi => by
    obtain ⟨r, hr⟩ := Option.isSome_iff_exists.mp hi
    obtain ⟨g₀, hm⟩ := hγ.moved (.app i)
    rw [hr] at hm
    rcases hm with h | h | h
    · cases h
    · exact .inl h
    · exact .inr h.1
  exact ho.eq_of_holding (hphase hl) (hphase hl')

/-- No `lock_x` reads its own identity at all: enough for `RelocksApart`, and easy to check. -/
def readsOthers (c : RelockConfig) (t : Actor) : Bool :=
  match c.labels t with
  | some (.ownerLoadX true l) => c.mem.shm.lockOwnerX ≠ makeGlobalOwner l
  | _ => true

theorem meets_of_readsOthers (c : RelockConfig) (t : Actor) (h : readsOthers c t = true) :
    c.Meets RelocksApart t := by
  rintro e he l rfl hx
  simp [readsOthers, he, hx] at h

def delaying : Policy := ⟨true, true⟩

/-- Thread 1 of node 0 leaves X as a token; thread 1 of node 1 queues and asks for it. -/
def askForToken : List (Config.Piece Actor Label Op) :=
  let a : Actor := .app ⟨1, 0⟩
  let b : Actor := .app ⟨1, 1⟩
  [.call a (.lockX delaying), .finish a, .call a (.unlockX delaying), .finish a,
   .call b (.lockX delaying), .upTo b (.wait ⟨1, 1⟩)]

/-- The GRANT reaches node 1 and its waiter takes X. -/
def wakeNodeOne : List (Config.Piece Actor Label Op) :=
  [.call (.handler 1 0) .handle, .finish (.handler 1 0), .finish (.app ⟨1, 1⟩)]

/-- The message thread of node 0 gives the token back, and node 1 holds X alone. -/
theorem exclusion_of_relocksApart_message :
    ∃ c, Config.Reach relockClient RelocksApart RelockConfig.init c ∧
      (c.held (.app ⟨1, 1⟩)).isSome ∧ ∀ l, (c.held (.app l)).isSome → l = ⟨1, 1⟩ := by
  have hrun : ∃ c, Config.Reach relockClient RelocksApart RelockConfig.init c ∧
      (c.held (.app ⟨1, 1⟩)).isSome :=
    Config.reach_of_runAll meets_of_readsOthers
      (askForToken ++ [.call (.handler 0 0) .handle, .finish (.handler 0 0)] ++ wakeNodeOne)
      (by decide +kernel)
  obtain ⟨c, hc, hx⟩ := hrun
  exact ⟨c, hc, hx, fun l hl => exclusion_of_relocksApart hc hl hx⟩

/-- The message thread has found the local lock of node 0 free when thread 1 of that node locks
    again and takes the old `lock_owner_x` for recursion; then X is given back under it. -/
theorem relock_violated :
    ∃ c, Config.Reachable relockClient RelockConfig.init c ∧
      (c.held (.app ⟨1, 0⟩)).isSome ∧ (c.held (.app ⟨1, 1⟩)).isSome :=
  Config.reachable_of_runAll
    (askForToken ++ [.call (.handler 0 0) .handle, .upTo (.handler 0 0) (.delayReserve 0),
      .call (.app ⟨1, 0⟩) (.lockX delaying), .finish (.app ⟨1, 0⟩),
      .finish (.handler 0 0)] ++ wakeNodeOne)
    (by decide +kernel)

end RemoteRelease

end UbsAtomic
