import UbsAtomic.Lock.SharedAccounting

/-! The S and X calls against the exact accounting, step by step, and what it gives for whole runs.

    Each lemma follows one function of the source from one point of a call to the next; the points
    are those of `Phase`. `ReachUnits` watches a run from outside and counts what each node has
    taken out of `lock_word` and put back. -/

namespace UbsAtomic

open Conc Conc.Prog

namespace SharedAccounting

/-! ### Steps by the field they write -/

section Fields

variable {s s' : Mem} {γ : Actor → Ghost} {l : Location} {g g' : Ghost} {k : LocalLock}

/-- The fields the accounting reads. -/
abbrev SameFields : Mem → Mem → Prop :=
  Kept (fun k => (k.lockWord, k.lockOwnerX, k.sharedOwnerBitmap)) fun k =>
    (k.lockWord, k.lockXOwner, k.globalState, k.globalReadRefCount, k.localIsReserveLock)

instance : View (fun k => (k.lockWord, k.lockOwnerX, k.sharedOwnerBitmap)) fun k : LocalLock =>
    (k.lockWord, k.lockXOwner, k.globalState, k.globalReadRefCount, k.localIsReserveLock) :=
  ⟨fun _ => rfl, fun _ => rfl⟩

theorem Inv.same (h : Inv s γ) (hs : SameFields s s') : Inv s' γ := by
  obtain ⟨hshm, hll, hreg⟩ := hs
  simp only [Prod.mk.injEq] at hshm hll
  obtain ⟨hw, ho, hb⟩ := hshm
  refine ⟨⟨hw ▸ h.glob.word, hw ▸ h.glob.nonneg, ho ▸ h.glob.owner⟩,
    ⟨fun n => ?_, fun l hl => ?_⟩, fun n => ?_, fun n => ?_, hreg ▸ h.created⟩
  · simpa only [LocalOk, (hll n).1] using h.loc.word n
  · rw [(hll _).2.1]
    exact h.loc.owner l hl
  · rw [hb]
    exact (h.nodes n).congr (hll n).2.2.2.1 (hll n).2.2.1
  · rw [(hll n).2.2.2.2]
    exact h.token n

/-- A step on the word or the owner of the local lock. -/
theorem Inv.moveLocal (h : Inv s γ) (hg : γ (.app l) = g)
    (hr : k.globalReadRefCount = (s.ll l.nodeId).globalReadRefCount)
    (hs : k.globalState = (s.ll l.nodeId).globalState)
    (ht : k.localIsReserveLock = (s.ll l.nodeId).localIsReserveLock)
    (hx : xUnits g' = xUnits g) (hu : g'.unit = g.unit) (hn : 0 < g'.x → 0 < g.x)
    (hc : ∀ c, weight c g' = weight c g)
    (hw : ∀ x lane, 0 ≤ x → xLocals g ≤ x → (∀ i, 0 ≤ lane i) → lanes g ≤ lane (laneForTid l.tid) →
      LocalOk (s.ll l.nodeId) x lane → LocalOk k (x + (xLocals g' - xLocals g))
        fun i => lane i + if laneForTid l.tid = i then lanes g' - lanes g else 0)
    (hnm : g'.named → k.lockXOwner = l.tid)
    (ho : k.lockXOwner = (s.ll l.nodeId).lockXOwner ∨ 1 ≤ xLocals g) :
    Inv { s with ll := Function.update s.ll l.nodeId k } (Function.update γ (.app l) g') where
  glob := h.glob.keep hg rfl rfl hx hu hn
  loc := h.loc.move hg (fun n hne => by simp [hne])
    (fun x lane a b c d e => by simpa using hw x lane a b c d e) (by simpa using hnm)
    (by simpa using ho)
  nodes := h.nodes.keep hg (fun n => ⟨ll_keep hr n, ll_keep hs n⟩) rfl hu hc
  token := fun n => (ll_keep ht n).trans (h.token n)
  created := h.created

/-- A step on the reference count or the state of the node. -/
theorem Inv.moveNode (h : Inv s γ) (hg : γ (.app l) = g)
    (hk : k.lockWord = (s.ll l.nodeId).lockWord) (ho : k.lockXOwner = (s.ll l.nodeId).lockXOwner)
    (ht : k.localIsReserveLock = (s.ll l.nodeId).localIsReserveLock)
    (hx : xUnits g' = xUnits g) (hu : g'.unit = g.unit) (hn : 0 < g'.x → 0 < g.x)
    (hl : lanes g' = lanes g) (hxl : xLocals g' = xLocals g) (hnm : g'.named → g.named)
    (hw : ∀ u b c, Sane c → (∀ k, weight k g ≤ c k) → NodeOk (s.ll l.nodeId) b u c →
      NodeOk k b u fun k => c k + (weight k g' - weight k g)) :
    Inv { s with ll := Function.update s.ll l.nodeId k } (Function.update γ (.app l) g') where
  glob := h.glob.keep hg rfl rfl hx hu hn
  loc := h.loc.keep hg (fun n => ⟨ll_keep hk n, ll_keep ho n⟩) hl hxl hnm
  nodes := h.nodes.move hg (fun n hne => by simp [hne]) (fun _ _ => rfl)
    fun u c a b e => by simpa [hu] using hw u _ c a b e
  token := fun n => (ll_keep ht n).trans (h.token n)
  created := h.created

/-- A step on `lock_word`. -/
theorem Inv.moveWord (h : Inv s γ) (hg : γ (.app l) = g) {v : ℤ}
    (hv : v = s.shm.lockWord - xLockDecr * (xUnits g' - xUnits g) - (g'.unit - g.unit))
    (h0 : 0 ≤ v) (hn : 0 < g'.x → 0 < g.x)
    (hl : lanes g' = lanes g) (hxl : xLocals g' = xLocals g) (hnm : g'.named → g.named)
    (hw : ∀ k u b c, Sane c → (∀ k, weight k g ≤ c k) → NodeOk k b u c →
      NodeOk k b (u + (g'.unit - g.unit)) fun k => c k + (weight k g' - weight k g)) :
    Inv (Shm.lockWord.set v s) (Function.update γ (.app l) g') where
  glob := h.glob.move hg hv h0 rfl hn
  loc := h.loc.keep hg (fun _ => ⟨rfl, rfl⟩) hl hxl hnm
  nodes := h.nodes.move hg (fun _ _ => rfl) (fun _ _ => rfl) fun u c a b e => hw _ u _ c a b e
  token := h.token
  created := h.created

/-- A step on the bit of the node. -/
theorem Inv.moveBit (h : Inv s γ) (hg : γ (.app l) = g) {v : BitVec 32}
    (hv : ∀ n : NodeId, n ≠ l.nodeId →
      v.getLsbD n.val = s.shm.sharedOwnerBitmap.getLsbD n.val)
    (hx : xUnits g' = xUnits g) (hu : g'.unit = g.unit) (hn : 0 < g'.x → 0 < g.x)
    (hl : lanes g' = lanes g) (hxl : xLocals g' = xLocals g) (hnm : g'.named → g.named)
    (hw : ∀ k u c, Sane c → (∀ k, weight k g ≤ c k) →
      NodeOk k (s.shm.sharedOwnerBitmap.getLsbD l.nodeId.val) u c →
      NodeOk k (v.getLsbD l.nodeId.val) u fun k => c k + (weight k g' - weight k g)) :
    Inv (Shm.sharedOwnerBitmap.set v s) (Function.update γ (.app l) g') where
  glob := h.glob.keep hg rfl rfl hx hu hn
  loc := h.loc.keep hg (fun _ => ⟨rfl, rfl⟩) hl hxl hnm
  nodes := h.nodes.move hg (fun _ _ => rfl) hv fun u c a b e => by
    rw [hu, sub_self, add_zero]
    exact hw _ u c a b e
  token := h.token
  created := h.created

/-- A step on `lock_owner_x`, by the thread that has X. -/
theorem Inv.moveOwner (h : Inv s γ) (hg : γ (.app l) = g) {v : ℕ} (hx : xUnits g' = xUnits g)
    (h1 : 1 ≤ xUnits g) (hu : g'.unit = g.unit) (hn : 0 < g'.x → v = makeGlobalOwner l)
    (hl : lanes g' = lanes g) (hxl : xLocals g' = xLocals g) (hnm : g'.named → g.named)
    (hc : ∀ c, weight c g' = weight c g) :
    Inv (Shm.lockOwnerX.set v s) (Function.update γ (.app l) g') where
  glob := by
    subst hg
    refine ⟨?_, h.glob.nonneg, fun l' hl' => ?_⟩
    · simp only [total_update, hx, hu, sub_self, add_zero]
      exact h.glob.word
    · by_cases hne : l' = l
      · subst hne
        exact hn (by simpa using hl')
      · -- X is out only once
        have h2 := add_le_total (γ := γ) xUnits_nonneg hne
        have h3 : 0 < (γ (.app l')).x := by simpa [hne] using hl'
        have h4 : ((γ (.app l')).x : ℤ) ≤ xUnits (γ (.app l')) := by
          unfold xUnits
          split <;> omega
        have := (h.alone h1).2
        omega
  loc := h.loc.keep hg (fun _ => ⟨rfl, rfl⟩) hl hxl hnm
  nodes := h.nodes.keep hg (fun _ => ⟨rfl, rfl⟩) rfl hu hc
  token := h.token
  created := h.created

end Fields

/-! ### The local lock -/

section Calls

variable {t : Actor} {l : Location} {g : Ghost} {α : Type} {s x : ℕ} {u : ℤ}

theorem stable (g : Ghost) : outline.Stable t Apart SameFields AnyLabel g :=
  ⟨fun _ _ _ _ hs hi => hi.same hs, trivial, fun _ _ => trivial, fun _ _ _ => trivial, .inl rfl⟩

/-- One reader more in its lane. -/
theorem wp_localLockTryAcquireS :
    wp outline (.app l) Apart (localLockTryAcquireS l.nodeId l.tid)
      (fun b g' => if b then g' = ⟨s, x, u, .inside⟩ else g' = ⟨s, x, u, .out⟩)
      ⟨s, x, u, .out⟩ := by
  refine quiet_loadAt.wp_bind (stable _) fun state => ?_
  split
  · exact ⟨trivial, rfl⟩
  dsimp only
  split
  · exact ⟨trivial, rfl⟩
  split
  · exact ⟨trivial, rfl⟩
  rename_i hsent _
  refine wp_bind (wp_casWeak trivial fun m γ hpre => ⟨trivial, fun heq => ?_, ?_⟩)
  · refine ⟨⟨s, x, u, .inside⟩, .inl rfl, ?_, trivial, trivial, rfl⟩
    have heq : (m.ll l.nodeId).lockWord (laneForTid l.tid) = state (laneForTid l.tid) := heq
    refine hpre.inv.moveLocal hpre.own rfl rfl rfl rfl rfl id (fun c => by cases c <;> rfl) ?_ ?_
      (.inl rfl)
    · rintro xl lane h0 - hlane - (⟨hx, hw⟩ | ⟨-, hw, -⟩)
      · refine .inl ⟨by simpa [xLocals] using hx, fun i => ?_⟩
        by_cases hi : laneForTid l.tid = i
        · subst hi
          have hl := hlane (laneForTid l.tid)
          rw [← heq, hw]
          simp [lanes]
          omega
        · simp [Function.update_of_ne (Ne.symm hi), hw i, hi]
      · -- an exclusive word has every sentinel set
        rw [hw] at heq
        exact absurd (by rw [← heq]; rfl) hsent
    · rintro (h | h | h | h)
      · exact (hpre.inv.loc.owner l (by rw [hpre.own]; exact .inl h))
      all_goals cases h
  · exact ⟨_, .inl rfl, by rw [hpre.update]; exact hpre.inv, trivial, trivial, rfl⟩

theorem lockS_meets :
    (LocalLock.lockSLoop l).Meets outline (.app l) Apart ⟨s, x, u, .out⟩
      (fun g' => g' = ⟨s, x, u, .inside⟩) (fun g' => g' = ⟨s, x, u, .out⟩)
      (fun r g' => g' = ⟨s, x, u, if r = .success then .inside else .out⟩) where
  stable := stable_core (stable _)
  attempt := wp_localLockTryAcquireS
  acquired := by
    rintro b slot _ rfl
    have hfetch : Quiet SameCore Label.Plain
        (fetch (Local.readCount l.nodeId) fun n => u32 (n + 1)) :=
      .rmw trivial fun _ _ => sameCore_local rfl
    refine (quiet_core (.bind hfetch fun _ =>
      quiet_ifThen ((localQueue_silent _).popHead slot))).wp (stable _)
  announce := ⟨trivial, rfl⟩
  giveUp := ⟨trivial, rfl⟩
  gaveUp := by
    rintro _ rfl
    exact ⟨stable_core (stable _), fun r hr => by simp [hr]⟩

theorem wp_localLockS :
    wp outline (.app l) Apart (LocalLock.lockS l)
      (fun r g' => g' = ⟨s, x, u, if r = .success then .inside else .out⟩) ⟨s, x, u, .out⟩ :=
  lockS_meets.wp_run (LocalLock.lockSLoop_waits l)

/-- The lane of a reader as the reader sees it. -/
theorem lane_of_reader {m : Mem} {γ : Actor → Ghost} (h : Inv m γ)
    (hg : γ (.app l) = ⟨s, x, u, .inside⟩) :
    ((m.ll l.nodeId).lockWord (laneForTid l.tid)).sentinel = false ∧
      ((m.ll l.nodeId).lockWord (laneForTid l.tid)).count ≠ 0 := by
  have h1 : 1 ≤ lanes (γ (.app l)) := by simp [hg, lanes]
  obtain ⟨hw, hc⟩ := h.reader h1
  rw [hw]
  exact ⟨rfl, by simp; omega⟩

/-- One reader less in its lane. -/
theorem wp_localLockTryReleaseS :
    wp outline (.app l) Apart (localLockTryReleaseS l.nodeId l.tid)
      (fun r g' => r.isSome ∧ g' = ⟨s, x, u, .out⟩) ⟨s, x, u, .inside⟩ := by
  refine wp_bind (wp_learn trivial trivial (.inl rfl) fun m γ hpre => ⟨trivial, ?_⟩)
  refine wp_loop (fun (lane : Lane) g' => (lane.sentinel = false ∧ lane.count ≠ 0) ∧
    g' = ⟨s, x, u, .inside⟩) trivial ⟨lane_of_reader hpre.inv hpre.own, rfl⟩ ?_
  rintro lane _ ⟨⟨hsent, hcount⟩, rfl⟩
  simp only [hsent, hcount, if_false, Bool.false_eq_true]
  refine wp_bind (wp_cas trivial fun m γ hpre => ⟨trivial, fun heq => ?_, fun hne => ?_⟩)
  · refine ⟨⟨s, x, u, .out⟩, .inl rfl, ?_, trivial, ?_⟩
    · have heq : (m.ll l.nodeId).lockWord (laneForTid l.tid) = lane := heq
      refine hpre.inv.moveLocal hpre.own rfl rfl rfl rfl rfl id (fun c => by cases c <;> rfl) ?_ ?_
        (.inl rfl)
      · rintro xl lane' h0 - hlane hle (⟨hx, hw⟩ | ⟨-, hw, -⟩)
        · refine .inl ⟨by simpa [xLocals] using hx, fun i => ?_⟩
          by_cases hi : laneForTid l.tid = i
          · subst hi
            rw [← heq, hw]
            simp [lanes]
            omega
          · simp [Function.update_of_ne (Ne.symm hi), hw i, hi]
        · rw [hw] at heq
          rw [← heq] at hsent
          simp [StateWord.xState] at hsent
      · rintro (h | h | h | h)
        · exact hpre.inv.loc.owner l (by rw [hpre.own]; exact .inl h)
        all_goals cases h
    · exact quiet_loadAt.wp_bind (stable _) fun after => ⟨trivial, rfl, rfl⟩
  · refine ⟨_, .inl rfl, by rw [hpre.update]; exact hpre.inv, trivial, trivial, ?_, rfl⟩
    exact lane_of_reader hpre.inv hpre.own

theorem wp_localUnlockS :
    wp outline (.app l) Apart (LocalLock.unlockS l)
      (fun r g' => r = .success ∧ g' = ⟨s, x, u, .out⟩) ⟨s, x, u, .inside⟩ := by
  refine wp_bind (wp_mono wp_localLockTryReleaseS ?_)
  rintro (_ | after) _ - ⟨hs, rfl⟩
  · cases hs
  dsimp only
  split
  · refine (quiet_core (localQueue_silent _).load).wp_bind (stable _) fun waiting => ?_
    refine (quiet_core (quiet_ifThen (LocalLock.quiet_wakeAfterUnlockExclusive _))).wp_bind (stable _)
      fun _ => ⟨trivial, rfl, rfl⟩
  · exact ⟨trivial, rfl, rfl⟩

/-- The word of an idle local lock turns exclusive. -/
theorem wp_localLockTryAcquireX :
    wp outline (.app l) Apart (localLockTryAcquireX l.nodeId)
      (fun b g' => if b then g' = ⟨s, x, u, .xWord⟩ else g' = ⟨s, x, u, .out⟩)
      ⟨s, x, u, .out⟩ := by
  refine quiet_loadAt.wp_bind (stable _) fun state => ?_
  split
  · exact ⟨trivial, rfl⟩
  rename_i hidle
  refine wp_bind (wp_casWeak trivial fun m γ hpre => ⟨trivial, fun heq => ?_, ?_⟩)
  · refine ⟨⟨s, x, u, .xWord⟩, .inl rfl, ?_, trivial, trivial, rfl⟩
    have hzero : (m.ll l.nodeId).lockWord = .zero := by
      have heq : (m.ll l.nodeId).lockWord = state := heq
      rw [heq]
      simpa [StateWord.isIdle] using hidle
    refine hpre.inv.moveLocal hpre.own rfl rfl rfl rfl rfl id (fun c => by cases c <;> rfl) ?_ ?_
      (.inl rfl)
    · rintro xl lane h0 - hlane - (⟨hx, hw⟩ | ⟨-, hw, -⟩)
      · refine .inr ⟨by simp [xLocals, hx], rfl, fun i => ?_⟩
        have h1 := hw i
        have h2 := hlane i
        simp only [hzero, StateWord.zero, Lane.zero, Lane.mk.injEq, and_self, and_true] at h1
        simp [lanes]
        omega
      · exact absurd (congrFun (hzero.symm.trans hw) 0) (by decide)
    · rintro (h | h | h | h)
      · exact hpre.inv.loc.owner l (by rw [hpre.own]; exact .inl h)
      all_goals cases h
  · exact ⟨_, .inl rfl, by rw [hpre.update]; exact hpre.inv, trivial, trivial, rfl⟩

/-- The exclusive thread writes or clears its name. -/
theorem wp_storeLocalOwner {ph ph' : Phase} {v : Tid}
    (hph : ph = .xWord ∧ ph' = .xLocal ∧ v = l.tid ∨ ph = .xLocal ∧ ph' = .xWord)
    (hx : x = 0 ∨ v = l.tid) :
    wp outline (.app l) Apart (store (Local.lockXOwner l.nodeId) v)
      (fun _ g' => g' = ⟨s, x, u, ph'⟩) ⟨s, x, u, ph⟩ := by
  refine wp_store trivial fun m γ hpre => ⟨trivial, ⟨s, x, u, ph'⟩, .inl rfl, ?_, trivial, rfl⟩
  refine hpre.inv.moveLocal hpre.own rfl rfl rfl ?_ rfl id (fun c => ?_) ?_ ?_ (.inr ?_)
  · rcases hph with ⟨rfl, rfl, -⟩ | ⟨rfl, rfl⟩ <;> rfl
  · rcases hph with ⟨rfl, rfl, -⟩ | ⟨rfl, rfl⟩ <;> cases c <;> rfl
  · intro xl lane _ _ _ _ hw
    rcases hph with ⟨rfl, rfl, -⟩ | ⟨rfl, rfl⟩ <;> simpa [xLocals, lanes, LocalOk] using hw
  · rcases hph with ⟨rfl, rfl, rfl⟩ | ⟨rfl, rfl⟩
    · exact fun _ => rfl
    · rintro (h | h | h | h)
      · rcases hx with rfl | rfl
        · cases h
        · rfl
      all_goals cases h
  · rcases hph with ⟨rfl, rfl, -⟩ | ⟨rfl, rfl⟩ <;> simp [xLocals]

/-- The exclusive word becomes free. -/
theorem wp_storeLocalWord :
    wp outline (.app l) Apart (store (Local.lockWord l.nodeId) .zero)
      (fun _ g' => g' = ⟨s, 0, u, .out⟩) ⟨s, 0, u, .xWord⟩ := by
  refine wp_store trivial fun m γ hpre => ⟨trivial, ⟨s, 0, u, .out⟩, .inl rfl, ?_, trivial, rfl⟩
  refine hpre.inv.moveLocal hpre.own rfl rfl rfl rfl rfl id (fun c => by cases c <;> rfl) ?_ ?_
    (.inl rfl)
  · rintro xl lane h0 hle - - (⟨hx, -⟩ | ⟨hx, -, hw⟩)
    · simp [xLocals] at hle
      omega
    · refine .inl ⟨by simp [xLocals, hx], fun i => ?_⟩
      simp [hw i, lanes, StateWord.zero, Lane.zero]
  · rintro (h | h | h | h) <;> cases h

theorem quiet_localXRecursive (n : NodeId) (v : ℕ) :
    Quiet SameFields AnyLabel (store (Local.xRecursive n) v) :=
  quiet_localStore fun _ => rfl

theorem lockX_meets :
    (LocalLock.lockXLoop l).Meets outline (.app l) Apart ⟨s, x, u, .out⟩
      (fun g' => g' = ⟨s, x, u, .xWord⟩) (fun g' => g' = ⟨s, x, u, .out⟩)
      (fun r g' => g' = ⟨s, x, u, if r = .success then .xLocal else .out⟩) where
  stable := stable_core (stable _)
  attempt := wp_localLockTryAcquireX
  acquired := by
    rintro b slot _ rfl
    refine wp_bind (wp_mono (wp_storeLocalOwner (.inl ⟨rfl, rfl, rfl⟩) (.inr rfl)) ?_)
    rintro _ _ - rfl
    refine (quiet_localXRecursive _ _).wp_bind (stable _) fun _ => ?_
    exact (quiet_core (quiet_ifThen ((localQueue_silent _).popHead slot))).wp (stable _)
  announce := ⟨trivial, rfl⟩
  giveUp := ⟨trivial, rfl⟩
  gaveUp := by
    rintro _ rfl
    exact ⟨stable_core (stable _), fun r hr => by simp [hr]⟩

theorem wp_localLockX :
    wp outline (.app l) Apart (LocalLock.lockX false l)
      (fun r g' => g' = ⟨s, x, u, if r = .success then .xLocal else .out⟩) ⟨s, x, u, .out⟩ := by
  refine quiet_loadAt.wp_bind (stable _) fun owner => ?_
  split
  · exact ⟨trivial, rfl⟩
  · exact lockX_meets.wp_run (LocalLock.lockXLoop_waits l)

theorem wp_localUnlockX :
    wp outline (.app l) Apart (LocalLock.unlockX false l)
      (fun r g' => r = .success ∧ g' = ⟨s, 0, u, .out⟩) ⟨s, 0, u, .xLocal⟩ := by
  refine wp_bind (wp_learn trivial trivial (.inl rfl) fun m γ hpre => ⟨trivial, ?_⟩)
  have howner : (m.ll l.nodeId).lockXOwner = l.tid :=
    hpre.inv.loc.owner l (by rw [hpre.own]; exact .inr (.inl rfl))
  rw [if_neg (by simp [Local.lockXOwner, Local.field, howner])]
  refine wp_bind ⟨trivial, (quiet_localXRecursive _ _).wp_bind (stable _) fun _ => ?_⟩
  refine wp_bind (wp_mono (wp_storeLocalOwner (.inr ⟨rfl, rfl⟩) (.inl rfl)) ?_)
  rintro _ _ - rfl
  refine wp_bind (wp_mono wp_storeLocalWord ?_)
  rintro _ _ - rfl
  refine (quiet_core (localQueue_silent _).load).wp_bind (stable _) fun waiting => ?_
  exact (quiet_core (quiet_ifThen (LocalLock.quiet_wakeAfterUnlockExclusive _))).wp_bind (stable _)
    fun _ => ⟨trivial, rfl, rfl⟩

/-! ### The reference count and the state of a node -/

/-- The name in the local lock belongs to X alone. -/
theorem named_of_x {ph ph' : Phase} {s' : ℕ} {u' : ℤ} (hp : ph' ≠ .xLocal ∧ ph' ≠ .xUnit ∧ ph' ≠ .xFree)
    (h : Ghost.named ⟨s', x, u', ph'⟩) : Ghost.named ⟨s, x, u, ph⟩ := by
  rcases h with h | h | h | h
  · exact .inl h
  · exact absurd h hp.1
  · exact absurd h hp.2.1
  · exact absurd h hp.2.2

/-- A follower joins a positive count. -/
theorem wp_tryIncGlobalRef :
    wp outline (.app l) Apart (LocalLock.tryIncGlobalRef l.nodeId)
      (fun b g' => if b then g' = ⟨s + 1, x, u, .out⟩ else g' = ⟨s, x, u, .inside⟩)
      ⟨s, x, u, .inside⟩ := by
  refine quiet_loadAt.wp_bind (stable _) fun state => ?_
  split
  · exact ⟨trivial, rfl⟩
  refine quiet_loadAt.wp_bind (stable _) fun ref => ?_
  refine wp_loop (fun _ g' => g' = ⟨s, x, u, .inside⟩) trivial rfl ?_
  rintro ref _ rfl
  split
  · exact ⟨trivial, rfl⟩
  split
  · exact ⟨trivial, rfl⟩
  rename_i hpos _
  refine quiet_loadAt.wp_bind (stable _) fun state => ?_
  split
  · exact ⟨trivial, rfl⟩
  refine wp_bind (wp_casWeak trivial fun m γ hpre => ⟨trivial, fun heq => ?_, ?_⟩)
  · refine ⟨⟨s + 1, x, u, .out⟩, .inl rfl, ?_, trivial, trivial, rfl⟩
    have heq : (m.ll l.nodeId).globalReadRefCount = ref := heq
    refine hpre.inv.moveNode hpre.own rfl rfl rfl rfl rfl id (by simp [lanes]) rfl
      (named_of_x (by decide)) fun v b c hc hle h => ?_
    obtain ⟨hr, hu, hb⟩ := h.counts
    obtain ⟨hl, hrel, ⟨hs, hp⟩ | ⟨hs, hp⟩⟩ := h.of_ref (by omega) <;> constructor <;>
      simp [weight, hs] <;> omega
  · exact ⟨_, .inl rfl, by rw [hpre.update]; exact hpre.inv, trivial, trivial, rfl⟩

/-- A reader becomes the leader of an idle node. -/
theorem wp_claim :
    wp outline (.app l) Apart (cas (Local.globalState l.nodeId) .idle .pending)
      (fun r g' => g' = ⟨s, x, u, if r.1 then .leads else .inside⟩) ⟨s, x, u, .inside⟩ := by
  refine wp_cas trivial fun m γ hpre => ⟨trivial, fun heq => ?_, fun _ => ?_⟩
  · refine ⟨⟨s, x, u, .leads⟩, .inl rfl, ?_, trivial, rfl⟩
    have heq : (m.ll l.nodeId).globalState = .idle := heq
    refine hpre.inv.moveNode hpre.own rfl rfl rfl rfl rfl id rfl rfl (named_of_x (by decide))
      fun v b c hc hle h => ?_
    obtain ⟨hr, hu, hb⟩ := h.counts
    have := h.idle heq
    constructor <;> simp [weight] <;> omega
  · exact ⟨⟨s, x, u, .inside⟩, .inl rfl, by rw [hpre.update]; exact hpre.inv, trivial, rfl⟩

/-- The leader turns its unit into the first reference. -/
theorem wp_publishRef :
    wp outline (.app l) Apart (storeAt (.refPublish l.nodeId) (Local.globalReadRefCount l.nodeId) 1)
      (fun _ g' => g' = ⟨s, x, u, .published⟩) ⟨s, x, u, .unit⟩ := by
  refine wp_store trivial fun m γ hpre => ⟨trivial, ⟨s, x, u, .published⟩, .inl rfl, ?_, trivial, rfl⟩
  refine hpre.inv.moveNode hpre.own rfl rfl rfl rfl rfl id rfl rfl (named_of_x (by decide))
    fun v b c hc hle h => ?_
  obtain ⟨hr, hu, hb⟩ := h.counts
  obtain ⟨hs, href, hlead, hpub, hrel⟩ := h.of_lead (hle .lead)
  constructor <;> simp [weight, hs] <;> omega

/-- The leader lets followers in. -/
theorem wp_publishState :
    wp outline (.app l) Apart (store (Local.globalState l.nodeId) .held)
      (fun _ g' => g' = ⟨s, x, u, .announced⟩) ⟨s, x, u, .published⟩ := by
  refine wp_store trivial fun m γ hpre => ⟨trivial, ⟨s, x, u, .announced⟩, .inl rfl, ?_, trivial, rfl⟩
  refine hpre.inv.moveNode hpre.own rfl rfl rfl rfl rfl id rfl rfl (named_of_x (by decide))
    fun v b c hc hle h => ?_
  obtain ⟨hr, hu, hb⟩ := h.counts
  obtain ⟨hs, href, hlead, hpub, hrel⟩ := h.of_pub (hle .pub)
  constructor <;> simp [weight] <;> omega

/-- The bit of the node, set by its leader. -/
theorem wp_setBit (hn : l.nodeId.val < ubMaxNodes) :
    wp outline (.app l) Apart (setSharedOwnerBitmap l.nodeId)
      (fun _ g' => g' = ⟨s + 1, x, u, .out⟩) ⟨s, x, u, .announced⟩ := by
  have hn : l.nodeId.val < 32 := lt_trans hn (by decide)
  unfold setSharedOwnerBitmap
  rw [if_neg (by omega)]
  refine wp_bind (wp_rmw trivial fun m γ hpre =>
    ⟨trivial, ⟨s + 1, x, u, .out⟩, .inl rfl, ?_, trivial, trivial, rfl⟩)
  refine hpre.inv.moveBit hpre.own (fun n hne => ?_) rfl rfl id (by simp [lanes]) rfl
    (named_of_x (by decide)) fun k v c hc hle h => ?_
  · change (m.shm.sharedOwnerBitmap ||| 1#32 <<< l.nodeId.val).getLsbD n.val = _
    have : n.val ≠ l.nodeId.val := fun h => hne (Fin.ext h)
    simp [BitVec.getLsbD_shiftLeft, BitVec.getLsbD_one]
    omega
  · change NodeOk k ((m.shm.sharedOwnerBitmap ||| 1#32 <<< l.nodeId.val).getLsbD l.nodeId.val) _ _
    have hset : (m.shm.sharedOwnerBitmap ||| 1#32 <<< l.nodeId.val).getLsbD l.nodeId.val = true := by
      simp [hn]
    obtain ⟨hr, hu, hb⟩ := h.counts
    have hf := hle .fresh
    have hp := hc.stale
    have hle' := hle .ref
    simp only [weight] at hf hle'
    rw [hset]
    obtain ⟨hl, hrel, ⟨hs, hp⟩ | ⟨hs, hp⟩⟩ := h.of_ref (by omega) <;> constructor <;>
      simp [weight, hs] <;> split_ifs at hb <;> omega

/-- A leader that gives up opens the node again. -/
theorem wp_failState :
    wp outline (.app l) Apart (store (Local.globalState l.nodeId) .idle)
      (fun _ g' => g' = ⟨s, x, u, .failed⟩) ⟨s, x, u, .leads⟩ := by
  refine wp_store trivial fun m γ hpre => ⟨trivial, ⟨s, x, u, .failed⟩, .inl rfl, ?_, trivial, rfl⟩
  refine hpre.inv.moveNode hpre.own rfl rfl rfl rfl rfl id rfl rfl (named_of_x (by decide))
    fun v b c hc hle h => ?_
  obtain ⟨hr, hu, hb⟩ := h.counts
  obtain ⟨hs, href, hlead, hpub, hrel⟩ := h.of_lead (hle .lead)
  constructor <;> simp [weight] <;> omega

/-- The reset of the reference count, where it is 0 already. -/
theorem wp_failRef :
    wp outline (.app l) Apart (storeAt (.refReset l.nodeId) (Local.globalReadRefCount l.nodeId) 0)
      (fun _ g' => g' = ⟨s, x, u, .inside⟩) ⟨s, x, u, .failed⟩ := by
  refine wp_store trivial fun m γ hpre => ⟨trivial, ⟨s, x, u, .inside⟩, .inl rfl, ?_, trivial, rfl⟩
  obtain ⟨ℓ, -, hcond⟩ := hpre.run
  have hzero : (m.ll l.nodeId).globalReadRefCount = 0 := hcond _ rfl
  refine hpre.inv.moveNode hpre.own rfl rfl rfl rfl rfl id rfl rfl (named_of_x (by decide))
    fun v b c hc hle h => ?_
  have hw : ∀ k, weight k ⟨s, x, u, .inside⟩ = weight k ⟨s, x, u, .failed⟩ := by
    intro k
    cases k <;> rfl
  simp only [hw, sub_self, add_zero]
  exact h.congr hzero.symm rfl

/-- A holder gives its reference up; the last one owes the unit. -/
theorem wp_dropRef :
    wp outline (.app l) Apart (fetch (Local.globalReadRefCount l.nodeId) (· - 1))
      (fun old g' => 1 ≤ old ∧ g' = ⟨s, x, u, if old > 1 then .inside else .owing⟩)
      ⟨s + 1, x, u, .out⟩ := by
  refine wp_rmw trivial fun m γ hpre => ?_
  have hpos : 1 ≤ (m.ll l.nodeId).globalReadRefCount := by
    have h1 := le_onNode (γ := γ) (weight_nonneg .ref) l
    rw [hpre.own] at h1
    have h2 := (hpre.inv.nodes l.nodeId).ref
    simp [weight] at h1 h2
    omega
  refine ⟨trivial, _, ?_, ?_, trivial, hpos, rfl⟩
  · exact .inl rfl
  change Inv { m with ll := Function.update m.ll l.nodeId { m.ll l.nodeId with
      globalReadRefCount := (m.ll l.nodeId).globalReadRefCount - 1 } } (Function.update γ (.app l)
        ⟨s, x, u, if (m.ll l.nodeId).globalReadRefCount > 1 then .inside else .owing⟩)
  split
  · refine hpre.inv.moveNode hpre.own rfl rfl rfl rfl rfl id (by simp [lanes]) rfl
      (named_of_x (by decide)) fun v b c hc hle h => ?_
    obtain ⟨hr, hu, hb⟩ := h.counts
    obtain ⟨hl, hrel, ⟨hs, hp⟩ | ⟨hs, hp⟩⟩ := h.of_ref (by omega) <;> constructor <;>
      simp [weight, hs] <;> omega
  · refine hpre.inv.moveNode hpre.own rfl rfl rfl rfl rfl id (by simp [lanes]) rfl
      (named_of_x (by decide)) fun v b c hc hle h => ?_
    obtain ⟨hr, hu, hb⟩ := h.counts
    -- a leader that has published has a reference of its own
    have hf := hc.ref
    have hpub := hc.pub
    have hle' := hle .full
    simp only [weight] at hle'
    obtain ⟨hl, hrel, ⟨hs, hp⟩ | ⟨hs, hp⟩⟩ := h.of_ref (by omega)
    · omega
    · constructor <;> simp [weight, hs] <;> omega

/-- The node is closed for leaders until its last reader is through. -/
theorem wp_reopen :
    wp outline (.app l) Apart (cas (Local.globalState l.nodeId) .held .idle)
      (fun _ g' => g' = ⟨s, x, u, .inside⟩) ⟨s, x, u, .cleared⟩ := by
  refine wp_cas trivial fun m γ hpre => ⟨trivial, fun heq => ?_, fun hne => ?_⟩
  · refine ⟨⟨s, x, u, .inside⟩, .inl rfl, ?_, trivial, rfl⟩
    refine hpre.inv.moveNode hpre.own rfl rfl rfl rfl rfl id rfl rfl (named_of_x (by decide))
      fun v b c hc hle h => ?_
    obtain ⟨hr, hu, hb⟩ := h.counts
    obtain ⟨hs, href, hlead, hpub, hrel⟩ := h.of_rel (hle .rel)
    constructor <;> simp [weight] <;> omega
  · have hle := le_onNode (γ := γ) (weight_nonneg .rel) l
    rw [hpre.own] at hle
    exact absurd ((hpre.inv.nodes l.nodeId).of_rel hle).1 hne

/-- Over an exclusive node the state is IDLE already. -/
theorem wp_storeIdle :
    wp outline (.app l) Apart (store (Local.globalState l.nodeId) .idle)
      (fun _ g' => g' = ⟨s, x, u, .xLocal⟩) ⟨s, x, u, .xLocal⟩ := by
  refine wp_store trivial fun m γ hpre => ⟨trivial, ⟨s, x, u, .xLocal⟩, .inl rfl, ?_, trivial, rfl⟩
  rw [hpre.update]
  have hidle := hpre.inv.idle_of_exclusive (l := l) (by rw [hpre.own]; simp [xLocals])
  exact hpre.inv.same (.onLocal (by simp [hidle]))

/-! ### The word, the owner and the bits -/

theorem wp_takeWordS :
    wp outline (.app l) Apart takeWordS
      (fun b g' => if b then g' = ⟨s, x, u + 1, .unit⟩ else g' = ⟨s, x, u, .leads⟩)
      ⟨s, x, u, .leads⟩ := by
  refine quiet_loadAt.wp_bind (stable _) fun cur => ?_
  split
  · rename_i hcur
    refine wp_bind (wp_casWeak trivial fun m γ hpre => ⟨trivial, fun heq => ?_, ?_⟩)
    · refine ⟨⟨s, x, u + 1, .unit⟩, .inr rfl, ?_, trivial, trivial, rfl⟩
      have heq : m.shm.lockWord = cur := heq
      refine hpre.inv.moveWord hpre.own ?_ (by omega) id rfl rfl (named_of_x (by decide))
        fun k v b c hc hle h => ?_
      · simp [heq, xUnits]
      · obtain ⟨hr, hu, hb⟩ := h.counts
        obtain ⟨hs, href, hlead, hpub, hrel⟩ := h.of_lead (hle .lead)
        constructor <;> simp [weight, hs] <;> omega
    · exact ⟨_, .inl rfl, by rw [hpre.update]; exact hpre.inv, trivial, trivial, rfl⟩
  · exact ⟨trivial, rfl⟩

/-- The unit goes back; the word never overflows. -/
theorem wp_giveWordS :
    wp outline (.app l) Apart (fetchAt (.wordRelease l.nodeId) Shm.lockWord (· + 1))
      (fun old g' => old + 1 ≤ xLockDecr ∧ g' = ⟨s, x, u - 1, .paid⟩) ⟨s, x, u, .owing⟩ := by
  refine wp_rmw trivial fun m γ hpre => ⟨trivial, ⟨s, x, u - 1, .paid⟩, .inr rfl, ?_, trivial, ?_, rfl⟩
  · have h0 := hpre.inv.glob.nonneg
    refine hpre.inv.moveWord hpre.own ?_ ?_ id rfl rfl (named_of_x (by decide))
      fun k v b c hc hle h => ?_
    · change m.shm.lockWord + 1 = _
      simp [xUnits]
    · change 0 ≤ m.shm.lockWord + 1
      omega
    · obtain ⟨hr, hu, hb⟩ := h.counts
      obtain ⟨hs, href, hlead, hpub, hrel⟩ := h.of_rel (hle .rel)
      constructor <;> simp [weight, hs] <;> omega
  · have hle := le_onNode (γ := γ) (weight_nonneg .loose) l
    rw [hpre.own] at hle
    have hu := (hpre.inv.nodes l.nodeId).unit
    have h0 := (sane_onNode l.nodeId γ).nonneg .ref
    have ht := hpre.inv.unit_le_total l.nodeId
    have hw := hpre.inv.glob.word
    have hx := total_nonneg (γ := γ) xUnits_nonneg
    change m.shm.lockWord + 1 ≤ _
    simp only [weight, xLockDecr] at hle hw h0 hu ⊢
    omega

theorem wp_takeWordX :
    wp outline (.app l) Apart takeWordX
      (fun b g' => if b then g' = ⟨s, x, u, .xUnit⟩ else g' = ⟨s, x, u, .xLocal⟩)
      ⟨s, x, u, .xLocal⟩ := by
  refine quiet_loadAt.wp_bind (stable _) fun cur => ?_
  split
  · rename_i hcur
    refine wp_bind (wp_casWeak trivial fun m γ hpre => ⟨trivial, fun heq => ?_, ?_⟩)
    · refine ⟨⟨s, x, u, .xUnit⟩, .inl rfl, ?_, trivial, trivial, rfl⟩
      have heq : m.shm.lockWord = cur := heq
      refine hpre.inv.moveWord hpre.own ?_ le_rfl id rfl rfl (fun _ => .inr (.inl rfl))
        fun k v b c hc hle h => ?_
      · simp [heq, hcur, xUnits]
      · have hw : ∀ k, weight k ⟨s, x, u, .xUnit⟩ = weight k ⟨s, x, u, .xLocal⟩ := by
          intro k
          cases k <;> rfl
        simpa only [hw, sub_self, add_zero] using h
    · exact ⟨_, .inl rfl, by rw [hpre.update]; exact hpre.inv, trivial, trivial, rfl⟩
  · exact ⟨trivial, rfl⟩

theorem wp_giveWordX :
    wp outline (.app l) Apart (store Shm.lockWord xLockDecr)
      (fun _ g' => g' = ⟨s, x, u, .xLocal⟩) ⟨s, x, u, .xFree⟩ := by
  refine wp_store trivial fun m γ hpre => ⟨trivial, ⟨s, x, u, .xLocal⟩, .inl rfl, ?_, trivial, rfl⟩
  have hzero := (hpre.inv.alone (l := l) (by rw [hpre.own]; simp [xUnits])).1
  refine hpre.inv.moveWord hpre.own ?_ (by decide) id rfl rfl (fun _ => .inr (.inr (.inr rfl)))
    fun k v b c hc hle h => ?_
  · simp [hzero, xUnits]
  · have hw : ∀ k, weight k ⟨s, x, u, .xLocal⟩ = weight k ⟨s, x, u, .xFree⟩ := by
      intro k
      cases k <;> rfl
    simpa only [hw, sub_self, add_zero] using h

/-- The new X holder signs. -/
theorem wp_signX :
    wp outline (.app l) Apart (store Shm.lockOwnerX (makeGlobalOwner l))
      (fun _ g' => g' = ⟨s, x + 1, u, .out⟩) ⟨s, x, u, .xUnit⟩ := by
  refine wp_store trivial fun m γ hpre => ⟨trivial, ⟨s, x + 1, u, .out⟩, .inl rfl, ?_, trivial, rfl⟩
  exact hpre.inv.moveOwner hpre.own (by simp [xUnits]) (by simp [xUnits]) rfl (fun _ => rfl) rfl
    (by simp [xLocals]) (fun _ => .inr (.inr (.inl rfl))) fun c => by cases c <;> rfl

/-- The X holder takes its signature back. -/
theorem wp_unsignX :
    wp outline (.app l) Apart (store Shm.lockOwnerX lockInvalidOwner)
      (fun _ g' => g' = ⟨s, 0, u, .xFree⟩) ⟨s, 1, u, .out⟩ := by
  refine wp_store trivial fun m γ hpre => ⟨trivial, ⟨s, 0, u, .xFree⟩, .inl rfl, ?_, trivial, rfl⟩
  exact hpre.inv.moveOwner hpre.own rfl (by simp [xUnits]) rfl (by simp) rfl rfl
    (fun _ => .inl (by simp)) fun c => by cases c <;> rfl

theorem wp_clearBit (hn : l.nodeId.val < ubMaxNodes) :
    wp outline (.app l) Apart (clearSharedOwnerBitmap l.nodeId)
      (fun _ g' => g' = ⟨s, x, u, .cleared⟩) ⟨s, x, u, .paid⟩ := by
  have hn : l.nodeId.val < 32 := lt_trans hn (by decide)
  unfold clearSharedOwnerBitmap
  rw [if_neg (by omega)]
  refine wp_bind (wp_rmw trivial fun m γ hpre =>
    ⟨trivial, ⟨s, x, u, .cleared⟩, .inl rfl, ?_, trivial, trivial, rfl⟩)
  refine hpre.inv.moveBit hpre.own (fun n hne => ?_) rfl rfl id rfl rfl (named_of_x (by decide))
    fun k v c hc hle h => ?_
  · change (m.shm.sharedOwnerBitmap &&& ~~~(1#32 <<< l.nodeId.val)).getLsbD n.val = _
    have : n.val ≠ l.nodeId.val := fun h => hne (Fin.ext h)
    by_cases hn32 : n.val < 32
    · simp [hn32]
      omega
    · simp [BitVec.getLsbD_of_ge _ _ (not_lt.mp hn32)]
  · change NodeOk k ((m.shm.sharedOwnerBitmap &&& ~~~(1#32 <<< l.nodeId.val)).getLsbD l.nodeId.val) _ _
    have hclear : (m.shm.sharedOwnerBitmap &&& ~~~(1#32 <<< l.nodeId.val)).getLsbD l.nodeId.val
        = false := by
      simp [hn]
    obtain ⟨hr, hu, hb⟩ := h.counts
    have hf := hc.ref
    have hfull := hc.nonneg .full
    have hfresh := hc.nonneg .fresh
    have hst := hle .stale
    have hst' := hc.stale
    obtain ⟨hs, href, hlead, hpub, hrel⟩ := h.of_rel (hle .rel)
    simp only [weight] at hst
    rw [hclear]
    constructor <;> simp [weight, hs] <;> split_ifs at hb <;> omega

/-! ### The calls -/

theorem sameFields_token {m : Mem} {γ : Actor → Ghost} (h : Inv m γ) (n : NodeId) :
    SameFields m ((Local.localIsReserveLock n).set .i m) :=
  .onLocal (by simp [h.token n])

theorem wp_clearToken (n : NodeId) :
    wp outline t Apart (store (Local.localIsReserveLock n) .i) (fun _ g' => g' = g) g := by
  refine wp_store trivial fun m γ hpre => ⟨trivial, g, .inl rfl, ?_, trivial, rfl⟩
  rw [hpre.update]
  exact hpre.inv.same (sameFields_token hpre.inv n)

/-- No token is ever found; and a thread that has local X has no other X. -/
theorem wp_takeToken (n : NodeId) :
    wp outline t Apart (exchange (Local.localIsReserveLock n) .i)
      (fun m g' => m = .i ∧ g' = g ∧ (t = .app l → g.ph = .xLocal → g.x = 0)) g := by
  refine wp_rmw trivial fun m γ hpre => ⟨trivial, g, .inl rfl, ?_, trivial, hpre.inv.token n, rfl, ?_⟩
  · rw [hpre.update]
    exact hpre.inv.same (sameFields_token hpre.inv n)
  · rintro rfl hph
    have hle := le_onNode (γ := γ) xLocals_nonneg l
    rw [hpre.own] at hle
    simp only [xLocals, hph] at hle
    rcases hpre.inv.loc.word l.nodeId with ⟨h0, -⟩ | ⟨h0, -⟩ <;> omega

theorem wp_delayReleaseLocalLock (mode : Mode) :
    wp outline (.app l) Apart (delayReleaseLocalLock mode l)
      (fun r g' => r = .success ∧ g' = g ∧ (g.ph = .xLocal → g.x = 0)) g := by
  refine wp_bind (wp_mono (wp_takeToken (l := l) l.nodeId) ?_)
  rintro m _ - ⟨rfl, rfl, hx⟩
  exact ⟨trivial, rfl, rfl, hx rfl⟩

theorem wp_waitOrClaimGlobalS :
    wp outline (.app l) Apart (waitOrClaimGlobalS l)
      (fun r g' => g' = if r = (.success, false) then ⟨s + 1, x, u, .out⟩
        else if r = (.success, true) then ⟨s, x, u, .leads⟩ else ⟨s, x, u, .out⟩)
      ⟨s, x, u, .inside⟩ := by
  refine wp_loop (fun _ g' => g' = ⟨s, x, u, .inside⟩) trivial rfl ?_
  rintro _ _ rfl
  refine wp_bind (wp_mono wp_tryIncGlobalRef fun follows g' _ hg => ?_)
  cases follows with
  | true => exact ⟨trivial, by simpa using hg⟩
  | false =>
    obtain rfl : g' = ⟨s, x, u, .inside⟩ := by simpa using hg
    have hunlock : wp outline (.app l) Apart ((LocalLock.unlockS l).bind fun _ =>
        .ret (.inr (.timeout, false) : Unit ⊕ Result × Bool)) (fun r h' => Sum.elim
          (fun _ => h' = ⟨s, x, u, .inside⟩)
          (fun b => h' = if b = (.success, false) then ⟨s + 1, x, u, .out⟩
            else if b = (.success, true) then ⟨s, x, u, .leads⟩ else ⟨s, x, u, .out⟩) r)
        ⟨s, x, u, .inside⟩ :=
      wp_bind (wp_mono wp_localUnlockS fun _ _ _ hg' => ⟨trivial, by simpa using hg'.2⟩)
    refine quiet_loadAt.wp_bind (stable _) fun state => ?_
    cases state with
    | idle =>
      refine wp_bind (wp_mono wp_claim ?_)
      rintro ⟨ok, _⟩ _ - rfl
      cases ok <;> exact ⟨trivial, by simp⟩
    | pending =>
      refine (quiet_core (quiet_waitFollowerS l)).wp_bind (stable _) fun settled => ?_
      cases settled with
      | true => exact ⟨trivial, rfl⟩
      | false => exact hunlock
    | held =>
      refine (quiet_core quiet_expired).wp_bind (stable _) fun late => ?_
      cases late with
      | true => exact hunlock
      | false => exact ⟨trivial, rfl⟩

theorem quiet_holdGlobal (n : NodeId) (v : Bool) :
    Quiet SameFields AnyLabel (store (Local.holdGlobal n) v) :=
  quiet_localStore fun _ => rfl

theorem wp_publishS (hn : l.nodeId.val < ubMaxNodes) :
    wp outline (.app l) Apart (publishS l.nodeId) (fun _ g' => g' = ⟨s + 1, x, u, .out⟩)
      ⟨s, x, u, .unit⟩ := by
  refine wp_bind (wp_mono wp_publishRef ?_)
  rintro _ _ - rfl
  refine (quiet_holdGlobal _ _).wp_bind (stable _) fun _ => ?_
  refine wp_bind (wp_mono wp_publishState ?_)
  rintro _ _ - rfl
  exact (quiet_core (quiet_notifyPending _)).wp_bind (stable _) fun _ => wp_setBit hn

theorem wp_cleanupAndUnlockLocal :
    wp outline (.app l) Apart (cleanupAndUnlockLocal l) (fun _ g' => g' = ⟨s, x, u, .out⟩)
      ⟨s, x, u, .leads⟩ := by
  refine wp_bind (wp_mono wp_failState ?_)
  rintro _ _ - rfl
  refine wp_bind (wp_mono wp_failRef ?_)
  rintro _ _ - rfl
  refine (quiet_holdGlobal _ _).wp_bind (stable _) fun _ => ?_
  refine (quiet_core (quiet_notifyPending _)).wp_bind (stable _) fun _ => ?_
  exact wp_bind (wp_mono wp_localUnlockS fun _ _ _ hg => ⟨trivial, hg.2⟩)

/-- What a lock call leaves: the hold if it succeeded, and nothing of the call itself. -/
def Ends (s x : ℕ) (g : Ghost) : Prop := g.s = s ∧ g.x = x ∧ g.ph = .out

theorem spinWaitS_meets (hn : l.nodeId.val < ubMaxNodes) :
    (spinWaitSLoop l).Meets outline (.app l) Apart ⟨s, x, u, .leads⟩
      (fun g' => g' = ⟨s, x, u + 1, .unit⟩) (fun g' => g' = ⟨s, x, u, .out⟩)
      (fun r => Ends (if r = .success then s + 1 else s) x) where
  stable := stable_core (stable _)
  attempt := wp_takeWordS
  acquired := by
    rintro b slot _ rfl
    refine (quiet_core (quiet_ifThen (sharedQueue_silent.popHead slot))).wp_bind (stable _)
      fun _ => wp_mono (wp_publishS hn) ?_
    rintro _ _ - rfl
    exact ⟨rfl, rfl, rfl⟩
  announce := (quiet_announce (fun _ _ => rfl) .s l).wp (stable _)
  giveUp := wp_cleanupAndUnlockLocal
  gaveUp := by
    rintro _ rfl
    exact ⟨stable_core (stable _), fun r hr => ⟨by simp [hr], rfl, rfl⟩⟩

theorem wp_lockS (hn : l.nodeId.val < ubMaxNodes) :
    wp outline (.app l) Apart (lockS l)
      (fun r => Ends (if r = .success then s + 1 else s) x) ⟨s, x, u, .out⟩ := by
  unfold lockS
  split
  · exact ⟨trivial, rfl, rfl, rfl⟩
  refine quiet_loadAt.wp_bind (stable _) fun found => ?_
  split
  · exact ⟨trivial, rfl, rfl, rfl⟩
  refine wp_bind (wp_mono wp_localLockS ?_)
  rintro r _ - rfl
  split
  · rename_i hr
    exact ⟨trivial, by simp [hr], rfl, rfl⟩
  rename_i hr
  rw [if_pos (not_not.mp hr)]
  refine wp_bind (wp_mono wp_waitOrClaimGlobalS ?_)
  rintro ⟨r, leader⟩ _ - rfl
  dsimp only
  split
  · rename_i hr
    refine ⟨trivial, ?_⟩
    cases r <;> cases leader <;> simp_all [Ends]
  · rename_i hr
    obtain ⟨rfl, rfl⟩ : r = .success ∧ leader = true := by simpa using hr
    refine wp_bind (wp_mono (wp_delayReleaseLocalLock .s) ?_)
    rintro _ _ - ⟨rfl, rfl, -⟩
    exact (spinWaitS_meets hn).wp_run (spinWaitSLoop_waits l)

theorem wp_releaseS (hn : l.nodeId.val < ubMaxNodes) :
    wp outline (.app l) Apart (releaseS .base l)
      (fun r g' => r = .success ∧ g' = ⟨s, x, u - 1, .cleared⟩) ⟨s, x, u, .owing⟩ := by
  refine wp_bind ⟨trivial, wp_bind (wp_mono (wp_clearToken l.nodeId) ?_)⟩
  rintro _ _ - rfl
  refine wp_bind (wp_mono wp_giveWordS ?_)
  rintro old _ - ⟨hold, rfl⟩
  have hclear : wp outline (.app l) Apart ((clearSharedOwnerBitmap l.nodeId).bind fun _ =>
      .ret Result.success) (fun r g' => r = .success ∧ g' = ⟨s, x, u - 1, .cleared⟩)
      ⟨s, x, u - 1, .paid⟩ :=
    wp_bind (wp_mono (wp_clearBit hn) fun _ _ _ hg => ⟨trivial, rfl, hg⟩)
  rw [if_neg (by omega)]
  split
  · exact (quiet_core (quiet_wakeIfWaiting l)).wp_bind (stable _) fun _ => hclear
  · exact hclear

/-- A created lock is found. -/
theorem wp_lookup (hn : l.nodeId.val < ubMaxNodes) :
    wp outline t Apart (load (registeredAt l.nodeId)) (fun found g' => found = true ∧ g' = g) g :=
  wp_learn trivial trivial (.inl rfl) fun _ _ hpre => ⟨trivial, hpre.inv.created _ hn, rfl⟩

theorem wp_unlockS (hn : l.nodeId.val < ubMaxNodes) :
    wp outline (.app l) Apart (unlockS .base l) (fun r g' => r = .success ∧ Ends s x g')
      ⟨s + 1, x, u, .out⟩ := by
  have hlocal : ∀ u', wp outline (.app l) Apart (LocalLock.unlockS l)
      (fun r g' => r = .success ∧ Ends s x g') ⟨s, x, u', .inside⟩ := fun u' =>
    wp_mono wp_localUnlockS fun _ _ _ ⟨hr, hg⟩ => ⟨hr, by rw [hg]; exact ⟨rfl, rfl, rfl⟩⟩
  unfold unlockS
  rw [if_neg (by simp [verifyParam, hn])]
  refine wp_bind (wp_mono (wp_lookup hn) ?_)
  rintro _ _ - ⟨rfl, rfl⟩
  refine wp_bind (wp_learn trivial trivial (.inl rfl) fun m γ hpre => ⟨trivial, ?_⟩)
  -- the holder is a reader of its lane
  obtain ⟨hw, hc⟩ := hpre.inv.reader (l := l) (by rw [hpre.own]; simp [lanes])
  have hlane : ((Local.lockWord l.nodeId).get m (laneForTid l.tid)) = _ := hw
  simp only [Bool.false_eq_true, hlane]
  rw [if_neg (by simp; omega)]
  refine wp_bind (wp_mono wp_dropRef ?_)
  rintro old _ - ⟨hold, rfl⟩
  split
  · exact hlocal u
  rw [if_neg (by omega)]
  refine wp_bind (wp_mono (wp_releaseS hn) ?_)
  rintro _ _ - ⟨rfl, rfl⟩
  refine (quiet_holdGlobal _ _).wp_bind (stable _) fun _ => ?_
  refine wp_bind (wp_mono wp_reopen ?_)
  rintro _ _ - rfl
  refine (quiet_core (quiet_notifyPending _)).wp_bind (stable _) fun _ => ?_
  exact (quiet_localStore fun _ => rfl).wp_bind (stable _) fun _ => hlocal _

theorem quiet_xRecursive (v : ℕ) : Quiet SameFields AnyLabel (store Shm.xRecursive v) :=
  quiet_shmStore fun _ => rfl

theorem spinWaitX_meets :
    (spinWaitLoop gripX false l).Meets outline (.app l) Apart ⟨s, 0, u, .xLocal⟩
      (fun g' => g' = ⟨s, 0, u, .xUnit⟩) (fun g' => g' = ⟨s, 0, u, .out⟩)
      (fun r => Ends s (if r = .success then 1 else 0)) where
  stable := stable_core (stable _)
  attempt := wp_takeWordX
  acquired := by
    rintro b slot _ rfl
    refine wp_bind (wp_mono wp_signX ?_)
    rintro _ _ - rfl
    refine (quiet_xRecursive _).wp_bind (stable _) fun _ => ?_
    refine (quiet_holdGlobal _ _).wp_bind (stable _) fun _ => ?_
    refine wp_mono ((quiet_core (quiet_ifThen (sharedQueue_silent.popHead slot))).wp (stable _)) ?_
    rintro _ _ - rfl
    exact ⟨rfl, rfl, rfl⟩
  announce := (quiet_announce (fun _ _ => rfl) .x l).wp (stable _)
  giveUp := wp_bind (wp_mono wp_localUnlockX fun _ _ _ hg => ⟨trivial, hg.2⟩)
  gaveUp := by
    rintro _ rfl
    exact ⟨stable_core (stable _), fun r hr => ⟨rfl, by simp [hr], rfl⟩⟩

theorem wp_lockX :
    wp outline (.app l) Apart (lockX .base l)
      (fun r => Ends s (if r = .success then x + 1 else x)) ⟨s, x, u, .out⟩ := by
  unfold lockX lockExclusive
  split
  · exact ⟨trivial, rfl, rfl, rfl⟩
  refine quiet_loadAt.wp_bind (stable _) fun found => ?_
  split
  · exact ⟨trivial, rfl, rfl, rfl⟩
  refine wp_bind (wp_mono wp_localLockX ?_)
  rintro r _ - rfl
  split
  · rename_i hr
    exact ⟨trivial, rfl, by simp [hr], rfl⟩
  rename_i hr
  rw [if_pos (not_not.mp hr)]
  refine wp_bind (wp_mono (wp_delayReleaseLocalLock .x) ?_)
  rintro _ _ - ⟨rfl, rfl, hx⟩
  obtain rfl : x = 0 := hx rfl
  refine quiet_loadAt.wp_bind (stable _) fun owner => ?_
  split
  · refine wp_bind (wp_mono wp_localUnlockX ?_)
    rintro _ _ - ⟨-, rfl⟩
    exact ⟨trivial, rfl, rfl, rfl⟩
  · exact spinWaitX_meets.wp_run (spinWaitLoop_waits gripX _ l)

theorem wp_releaseX :
    wp outline (.app l) Apart (releaseX .base l)
      (fun b g' => b = true ∧ x = 0 ∧ g' = ⟨s, 0, u, .xLocal⟩) ⟨s, x + 1, u, .out⟩ := by
  refine wp_bind (wp_learn trivial trivial (.inl rfl) fun m γ hpre => ⟨trivial, ?_⟩)
  have howner : m.shm.lockOwnerX = makeGlobalOwner l :=
    hpre.inv.glob.owner l (by rw [hpre.own]; exact Nat.succ_pos x)
  -- X is out once, so this is the only X hold of the thread
  obtain rfl : x = 0 := by
    have hle := le_total (γ := γ) xUnits_nonneg l
    have hone := (hpre.inv.alone (l := l) (by rw [hpre.own]; simp [xUnits])).2
    rw [hpre.own] at hle
    simp only [xUnits] at hle
    push_cast at hle
    omega
  rw [if_neg (by simpa [Shm.lockOwnerX, shmField] using howner)]
  refine wp_bind ⟨trivial, wp_bind (wp_mono (wp_clearToken l.nodeId) ?_)⟩
  rintro _ _ - rfl
  refine (quiet_holdGlobal _ _).wp_bind (stable _) fun _ => ?_
  refine wp_bind (wp_mono wp_unsignX ?_)
  rintro _ _ - rfl
  refine (quiet_xRecursive _).wp_bind (stable _) fun _ => ?_
  refine wp_bind (wp_mono wp_giveWordX ?_)
  rintro _ _ - rfl
  exact (quiet_core (quiet_wakeIfWaiting l)).wp_bind (stable _) fun _ => ⟨trivial, rfl, rfl, rfl⟩

theorem wp_unlockX (hn : l.nodeId.val < ubMaxNodes) :
    wp outline (.app l) Apart (unlockX .base l) (fun r g' => r = .success ∧ Ends s x g')
      ⟨s, x + 1, u, .out⟩ := by
  unfold unlockX
  rw [if_neg (by simp [verifyParam, hn])]
  refine wp_bind (wp_mono (wp_lookup hn) ?_)
  rintro _ _ - ⟨rfl, rfl⟩
  refine wp_bind ⟨trivial, wp_bind (wp_mono wp_releaseX ?_)⟩
  rintro _ _ - ⟨rfl, rfl, rfl⟩
  refine wp_bind (wp_mono wp_storeIdle ?_)
  rintro _ _ - rfl
  refine wp_mono wp_localUnlockX ?_
  rintro _ _ - ⟨rfl, rfl⟩
  exact ⟨rfl, rfl, rfl, rfl⟩

end Calls

/-! ### Every run -/

/-- Only S and X, without recursion and without delayed release. -/
def sxFreeRule (_ : Holds) : Op → Bool
  | .lockS => true
  | .lockX p | .unlockS p | .unlockX p => p = .base
  | .lockSx _ | .unlockSx _ | .handle => false

theorem proved : spec.Proved (lockClient sxFreeRule) where
  stay := fun _ _ _ _ _ => .inl rfl
  idle := fun _ _ _ _ => ⟨trivial, .inl rfl⟩
  start := fun _ _ _ _ _ _ => .inl rfl
  call := by
    rintro (l | ⟨n, k⟩) ⟨hs, hsx, hx⟩ op g ha hg
    · obtain ⟨s, x, u, ph⟩ := g
      obtain ⟨rfl, rfl, rfl⟩ : s = hs ∧ x = hx ∧ ph = .out := hg
      cases op <;> simp [lockClient, sxFreeRule, Holds.owns] at ha
      case lockS =>
        refine wp_mono (wp_lockS ha.2) fun r g' _ hg' => ⟨trivial, ?_⟩
        cases r <;> exact hg'
      case lockX p =>
        obtain ⟨-, rfl⟩ := ha
        refine wp_mono wp_lockX fun r g' _ hg' => ⟨trivial, ?_⟩
        cases r <;> exact hg'
      case unlockS p =>
        obtain ⟨⟨hn, hpos⟩, rfl⟩ := ha
        obtain ⟨s, rfl⟩ : ∃ s', s = s' + 1 := ⟨s - 1, by omega⟩
        refine wp_mono (wp_unlockS hn.2) fun r g' _ hg' => ⟨hg'.1, ?_⟩
        cases r <;> exact hg'.2
      case unlockX p =>
        obtain ⟨⟨hn, hpos⟩, rfl⟩ := ha
        obtain ⟨x, rfl⟩ : ∃ x', x = x' + 1 := ⟨x - 1, by omega⟩
        refine wp_mono (wp_unlockX hn.2) fun r g' _ hg' => ⟨hg'.1, ?_⟩
        cases r <;> exact hg'.2
    · obtain ⟨-, rfl⟩ : n.val < ubMaxNodes ∧ op = .handle := by simpa [lockClient] using ha
      refine wp_bind (wp_mono (wp_messageProcess (fun _ _ => rfl) (stable _) ?_) fun _ _ _ _ =>
        ⟨trivial, trivial, trivial⟩)
      exact wp_mono (wp_takeToken (l := ⟨0, n⟩) n) fun _ _ _ h => ⟨h.1, h.2.1⟩

theorem holds_init :
    spec.Holds (lockClient sxFreeRule) LockConfig.init (fun _ => ⟨0, 0, 0, .out⟩) where
  inv := by
    refine ⟨⟨?_, by decide, ?_⟩, ⟨fun n => ?_, ?_⟩, fun n => ?_, fun n => rfl, ?_⟩
    · simp [total, sumOver, xUnits, LockConfig.init, Mem.init, UbRwLock.init]
    · simp
    · refine .inl ⟨by simp [onNode, sumOver, xLocals], fun i => ?_⟩
      simp [onLane, sumOver, lanes, LockConfig.init, Mem.init, LocalLock.init, StateWord.zero,
        Lane.zero]
    · rintro l (h | h | h | h) <;> cases h
    · constructor <;> simp [onNode, sumOver, weight, LockConfig.init, Mem.init, UbRwLock.init,
        LocalLock.init]
    · simp [LockConfig.init, Mem.init]
  moved := fun _ => ⟨_, .inl rfl⟩
  idle := by
    rintro (l | ⟨n, k⟩) -
    · exact ⟨rfl, rfl, rfl⟩
    · trivial
  busy := by simp [LockConfig.init]

/-! ### Observed from outside -/

/-- Units of `lock_word` each node has taken and not given back: one more when a thread of the node
    takes 1 off the word, one less when it puts 1 back. -/
def watchUnits (c : LockConfig) (t : Actor) (c' : LockConfig) (u : NodeId → ℤ) : NodeId → ℤ :=
  match t with
  | .handler _ _ => u
  | .app l =>
    if c'.mem.shm.lockWord = c.mem.shm.lockWord - 1 then
      Function.update u l.nodeId (u l.nodeId + 1)
    else if c'.mem.shm.lockWord = c.mem.shm.lockWord + 1 then
      Function.update u l.nodeId (u l.nodeId - 1)
    else u

theorem watchUnits_step {c c' : LockConfig} {γ : Actor → Ghost} {t : Actor} {g : Ghost}
    {u : NodeId → ℤ} (h : Inv c.mem γ) (h' : Inv c'.mem (Function.update γ t g))
    (hm : Apart (γ t) g)
    (hu : ∀ n, u n = onNode n (·.unit) γ) (n : NodeId) :
    watchUnits c t c' u n = onNode n (·.unit) (Function.update γ t g) := by
  cases t with
  | handler m k => rw [watchUnits, onNode, sumOver_handler, hu, onNode]
  | app l =>
    have hw := h.glob.word
    have hw' := h'.glob.word
    have ha := h.unit_le l.nodeId
    have hb := h'.unit_le l.nodeId
    rw [total_update, total_update] at hw'
    rw [onNode_update, if_pos rfl] at hb
    simp only [xLockDecr] at hw hw'
    simp only [watchUnits, onNode_update]
    by_cases hn : l.nodeId = n
    · subst hn
      have hown := hu l.nodeId
      rw [if_pos rfl]
      unfold Apart at hm
      split_ifs
      · rw [Function.update_self]
        omega
      · rw [Function.update_self]
        omega
      · omega
    · split_ifs <;> simp [Function.update_of_ne (Ne.symm hn), hu]

/-- What a lock nobody is calling looks like: the word, the X owner, the bitmap and the reference
    counts say exactly who holds what. -/
structure Settled (c : LockConfig) : Prop where
  exclusive : ∀ l, 0 < (c.held (.app l)).x →
    c.mem.shm.lockWord = 0 ∧ c.mem.shm.lockOwnerX = makeGlobalOwner l
  shared : (∀ l, (c.held (.app l)).x = 0) → c.mem.shm.lockWord =
    xLockDecr - ({n | ∃ l : Location, l.nodeId = n ∧ 0 < (c.held (.app l)).s} : Set NodeId).ncard
  bitmap : ∀ i < 32, c.mem.shm.sharedOwnerBitmap.getLsbD i = true ↔
    ∃ l : Location, l.nodeId.val = i ∧ 0 < (c.held (.app l)).s
  ref : ∀ n, (c.mem.ll n).globalReadRefCount = onNode n (fun h => (h.s : ℤ)) c.held

theorem onNode_pos_iff {held : Actor → Holds} {n : NodeId} :
    0 < onNode n (fun h => (h.s : ℤ)) held ↔
      ∃ l : Location, l.nodeId = n ∧ 0 < (held (.app l)).s := by
  constructor
  · intro h
    by_contra hno
    push Not at hno
    exact h.ne' (sumOver_eq_zero fun l hl => by simpa using hno l hl)
  · rintro ⟨l, rfl, hl⟩
    have := le_onNode (f := fun h : Holds => (h.s : ℤ)) (γ := held) (by simp) l
    omega

theorem settled {c : LockConfig} {γ : Actor → Ghost}
    (h : spec.Holds (lockClient sxFreeRule) c γ) (hq : ∀ l, c.pc (.app l) = none) : Settled c := by
  have hrest : ∀ l, (γ (.app l)).s = (c.held (.app l)).s ∧ (γ (.app l)).x = (c.held (.app l)).x ∧
      (γ (.app l)).ph = .out := fun l => h.idle (.app l) (hq l)
  have href : ∀ n, onNode n (weight .ref) γ = onNode n (fun h => (h.s : ℤ)) c.held := fun n =>
    sumOver_congr fun l => by
      obtain ⟨h1, -, h3⟩ := hrest l
      simp [weight, h1, h3]
  have hzero : ∀ k n, k ≠ .ref → k ≠ .full → onNode n (weight k) γ = 0 := fun k n hk hk' =>
    sumOver_eq_zero fun l _ => by
      have hph := (hrest l).2.2
      cases k <;> simp_all [weight]
  have hnonneg : ∀ n, 0 ≤ onNode n (fun h => (h.s : ℤ)) c.held := onNode_nonneg (by simp)
  have hunit : ∀ n, onNode n (·.unit) γ
      = if 0 < onNode n (fun h => (h.s : ℤ)) c.held then 1 else 0 := fun n => by
    have h1 := (h.inv.nodes n).unit
    have h2 := hzero .loose n (by simp) (by simp)
    have h3 := hnonneg n
    simp only [href, h2] at h1
    split_ifs <;> omega
  have hx : total xUnits γ = total (fun h => (h.x : ℤ)) c.held := sumOver_congr fun l => by
    obtain ⟨-, h2, h3⟩ := hrest l
    simp [xUnits, h2, h3]
  refine ⟨fun l hl => ?_, fun hno => ?_, fun i hi => ?_, fun n => ?_⟩
  · have hl' : 0 < (γ (.app l)).x := by rw [(hrest l).2.1]; exact hl
    refine ⟨(h.inv.alone (l := l) ?_).1, h.inv.glob.owner l hl'⟩
    unfold xUnits
    split <;> omega
  · have hx0 : total (fun h => (h.x : ℤ)) c.held = 0 :=
      sumOver_eq_zero fun l _ => by simp [hno l]
    have hw := h.inv.glob.word
    rw [hx, hx0, total_eq_sum_onNode] at hw
    have hset : ({n | ∃ l : Location, l.nodeId = n ∧ 0 < (c.held (.app l)).s} : Set NodeId)
        = Finset.univ.filter fun n => 0 < onNode n (fun h => (h.s : ℤ)) c.held := by
      ext n
      simp [onNode_pos_iff]
    simp only [hunit, Finset.sum_boole] at hw
    rw [hw, hset, Set.ncard_coe_finset, mul_zero, sub_zero]
  · obtain ⟨n, rfl⟩ : ∃ n : NodeId, n.val = i := ⟨⟨i, by omega⟩, rfl⟩
    have h1 := (h.inv.nodes n).bit
    have h2 := hzero .fresh n (by simp) (by simp)
    have h3 := hzero .stale n (by simp) (by simp)
    have h4 := hnonneg n
    simp only [h2, h3, href] at h1
    simp only [Fin.val_inj]
    rw [← onNode_pos_iff]
    split_ifs at h1 with hb <;> simp [hb] <;> omega
  · rw [← href]
    exact (h.inv.nodes n).ref

/-- In every run in which a leader that gives up finds the reference count at 0 when it resets it:
    every unlock returns SUCCESS; every node has at most one unit out, and has it out for as long as
    its reference count is positive; and between calls the lock says exactly who holds what. -/
theorem accounting_of_resetsClean {c : LockConfig} {u : NodeId → ℤ}
    (hc : Config.Watched (lockClient sxFreeRule) ResetsClean watchUnits LockConfig.init (fun _ => 0)
      c u) :
    (∀ l op r, c.pc (.app l) = some (op, .ret r) →
      op = .unlockS .base ∨ op = .unlockX .base → r = .success) ∧
    (∀ n, (u n = 0 ∨ u n = 1) ∧ (0 < (c.mem.ll n).globalReadRefCount → u n = 1)) ∧
    ((∀ l, c.pc (.app l) = none) → Settled c ∧
      ∀ n, u n = if 0 < (c.mem.ll n).globalReadRefCount then 1 else 0) := by
  obtain ⟨γ, h, hu⟩ := proved.sound_watched holds_init (fun γ u => ∀ n, u n = onNode n (·.unit) γ)
    (fun n => by simp [onNode, sumOver])
    (fun x y γ t g ω hx hy hm hj n => watchUnits_step (u := ω) hx.inv hy.inv hm hj n)
    hc
  have hle : ∀ n, 0 ≤ u n ∧ u n ≤ 1 := fun n => hu n ▸ h.inv.unit_le n
  have hin : ∀ n, 0 < (c.mem.ll n).globalReadRefCount → u n = 1 := fun n hr => by
    have h1 := (h.inv.nodes n).unit
    have h2 := (h.inv.nodes n).ref
    have h3 := (sane_onNode n γ).nonneg .loose
    have h4 := hle n
    have h5 := hu n
    omega
  refine ⟨fun l op r hp hop => ?_, fun n => ⟨?_, hin n⟩, fun hq => ⟨settled h hq, fun n => ?_⟩⟩
  · have hgood : Good op r := h.returned hp
    rcases hop with rfl | rfl <;> exact hgood
  · have := hle n
    omega
  · split
    · exact hin n ‹_›
    · have h1 := (h.inv.nodes n).unit
      have h2 := (h.inv.nodes n).ref
      have h3 : onNode n (weight .loose) γ = 0 := sumOver_eq_zero fun l _ => by
        have hph : (γ (.app l)).ph = .out := (h.idle (.app l) (hq l)).2.2
        simp [weight, hph]
      have h4 := hle n
      have h5 := hu n
      omega

/-- `ResetsClean`, as a check on a configuration. -/
def resetsClean (c : LockConfig) (t : Actor) : Bool :=
  match c.labels t with
  | some (.refReset n) => (c.mem.ll n).globalReadRefCount = 0
  | _ => true

theorem meets_of_resetsClean (c : LockConfig) (t : Actor) (h : resetsClean c t = true) :
    c.Meets ResetsClean t := by
  rintro e he n rfl
  simpa [resetsClean, he] using h

/-- A leader times out, resets an empty node, and the next leader's unit is counted. -/
theorem accounting_of_resetsClean_timeout :
    ∃ c u, Config.Watched (lockClient sxFreeRule) ResetsClean watchUnits LockConfig.init
      (fun _ => 0) c u ∧ 0 < (c.mem.ll 0).globalReadRefCount ∧ u 0 = 1 := by
  let e : Actor := .app ⟨1, 1⟩
  let a : Actor := .app ⟨1, 0⟩
  have hrun : ∃ c, Config.Reach (lockClient sxFreeRule) ResetsClean LockConfig.init c ∧
      0 < (c.mem.ll 0).globalReadRefCount :=
    Config.reach_of_runAll meets_of_resetsClean
      [.call e (.lockX .base), .finish e, .call a .lockS, .upTo a (.wait ⟨1, 0⟩), .steps a [1],
        .finish a, .call e (.unlockX .base), .finish e, .call a .lockS, .finish a]
      (by decide +kernel)
  obtain ⟨c, hc, hr⟩ := hrun
  obtain ⟨u, hu⟩ : ∃ u, Config.Watched (lockClient sxFreeRule) ResetsClean watchUnits
      LockConfig.init (fun _ => 0) c u := hc.watched _
  exact ⟨c, u, hu, hr, ((accounting_of_resetsClean hu).2.1 0).2 hr⟩

/-- Thread 1 of node 1 holds X. Thread 1 of node 0 leads, times out and writes IDLE; before it
    resets the count, X is released and thread 2 of node 0 leads and succeeds. -/
def lateReset : List (Config.Piece Actor Label Op) :=
  let e : Actor := .app ⟨1, 1⟩
  let a : Actor := .app ⟨1, 0⟩
  let b : Actor := .app ⟨2, 0⟩
  [.call e (.lockX .base), .finish e, .call a .lockS, .upTo a (.wait ⟨1, 0⟩), .steps a [1],
    .upTo a (.refReset 0), .call e (.unlockX .base), .finish e, .call b .lockS, .finish b, .finish a,
    .call b (.unlockS .base), .steps b [0, 0, 0, 0]]

/-- The late reset takes the reference of thread 2 away, and its `unlock_s` returns ERROR. -/
theorem accounting_violated :
    ∃ c, Config.Reachable (lockClient sxFreeRule) LockConfig.init c ∧
      c.pc (.app ⟨2, 0⟩) = some (.unlockS .base, .ret .error) := by
  have hrun : ∃ c, Config.Reachable (lockClient sxFreeRule) LockConfig.init c ∧
      c.Returns (.app ⟨2, 0⟩) (.unlockS .base) .error = true :=
    Config.reachable_of_runAll lateReset (by decide +kernel)
  obtain ⟨c, hc, hr⟩ := hrun
  exact ⟨c, hc, Config.pc_of_returns hr⟩

end SharedAccounting

end UbsAtomic
