import UbsAtomic.Ring.FlowConfig

/-! When a copy of the congestion threshold belongs to the version it is stored with.

    A pair (threshold, version) is good when its version is old, or when its version is the ring's
    and the threshold is the ring's too as soon as no setter stands between its two writes. Whoever
    reads the version first gets a good pair, and a good pair stays good. Whoever reads the threshold
    first gets one only if no threshold is stored between the two reads, and two writers of one copy
    may mix their pairs. -/

namespace UbsAtomic

open Conc Conc.Prog

namespace Ring

abbrev Mem.threshold (s : Mem) : ℕ := s.ring.congestionThreshold

abbrev Mem.version (s : Mem) : ℕ := s.ring.congestionThresholdVersion

abbrev Mem.cached (s : Mem) (n : ℕ) : ℕ := (s.caches n).cachedThreshold

abbrev Mem.cachedVersion (s : Mem) (n : ℕ) : ℕ := (s.caches n).cachedThresholdVersion

namespace FlowConfig

/-! ### What has nothing to do with thresholds -/

/-- The step leaves the threshold, its version and all copies alone. -/
structure Same (s s' : Mem) : Prop where
  threshold : s'.threshold = s.threshold
  version : s'.version = s.version
  cached : ∀ n, s'.cached n = s.cached n
  cachedVersion : ∀ n, s'.cachedVersion n = s.cachedVersion n

theorem Same.refl (s : Mem) : Same s s := ⟨rfl, rfl, fun _ => rfl, fun _ => rfl⟩

/-- And the messages, too. -/
structure Apart (s s' : Mem) : Prop extends Same s s' where
  mail : s'.mail = s.mail

theorem Apart.refl (s : Mem) : Apart s s := ⟨.refl s, rfl⟩

abbrev ApartOnly {α : Type} (c : Call α) : Prop := Quiet Apart (fun _ => True) c

theorem apart_load {α : Type} {e : Label} (p : Place Mem α) : ApartOnly (loadAt e p) :=
  .read trivial Apart.refl

/-- The copy of node `n` changes in some other field. -/
theorem apart_cache (s : Mem) (n : ℕ) {c : Cache}
    (ht : c.cachedThreshold = (s.caches n).cachedThreshold)
    (hv : c.cachedThresholdVersion = (s.caches n).cachedThresholdVersion) :
    Apart s { s with caches := Function.update s.caches n c } := by
  refine ⟨⟨rfl, rfl, fun m => ?_, fun m => ?_⟩, rfl⟩ <;> rcases eq_or_ne m n with rfl | hm
  · simpa [Mem.cached] using ht
  · simp [Mem.cached, hm]
  · simpa [Mem.cachedVersion] using hv
  · simp [Mem.cachedVersion, hm]

theorem apart_shadowHead (n v : ℕ) : ApartOnly (store (shadowHeadAt n) v) :=
  .write trivial fun s => apart_cache s n rfl rfl

theorem apart_cacheInitialized (n : ℕ) (v : Bool) : ApartOnly (store (cacheInitializedAt n) v) :=
  .write trivial fun s => apart_cache s n rfl rfl

theorem apart_lookup (n : ℕ) (v : Bool) : ApartOnly (store (lookupAt n) v) :=
  .write trivial fun s => apart_cache s n rfl rfl

theorem apart_resetShadowHead (n : ℕ) : ApartOnly (resetShadowHead n) := by
  refine ⟨trivial, fun s c s' b hf => ?_, fun _ => trivial⟩
  cases hf
  exact apart_cache s n rfl rfl

theorem apart_getRemoteRing (n : ℕ) : ApartOnly (getRemoteRing n) :=
  (apart_load _).bind fun _ => .ite trivial ((apart_load _).bind fun _ => .ite trivial
    ((apart_load _).bind fun _ => .ite trivial ((apart_lookup n true).bind fun _ => trivial)))

theorem apart_lockShared (n k : ℕ) : ApartOnly (lockShared n k) := by
  refine ⟨trivial, fun s c s' b hf => ?_, fun _ => trivial⟩
  dsimp only at hf
  split at hf <;> cases hf
  exact ⟨⟨rfl, rfl, fun _ => rfl, fun _ => rfl⟩, rfl⟩

theorem apart_unlockShared (n k : ℕ) : ApartOnly (unlockShared n k) := by
  refine ⟨trivial, fun s c s' b hf => ?_, fun _ => trivial⟩
  cases hf
  exact ⟨⟨rfl, rfl, fun _ => rfl, fun _ => rfl⟩, rfl⟩

theorem apart_lockUnique (n : ℕ) : ApartOnly (lockUnique n) := by
  refine ⟨trivial, fun s c s' b hf => ?_, fun _ => trivial⟩
  dsimp only at hf
  split at hf <;> cases hf
  exact ⟨⟨rfl, rfl, fun _ => rfl, fun _ => rfl⟩, rfl⟩

theorem apart_unlockUnique (n : ℕ) : ApartOnly (unlockUnique n) := by
  refine ⟨trivial, fun s c s' b hf => ?_, fun _ => trivial⟩
  cases hf
  exact ⟨⟨rfl, rfl, fun _ => rfl, fun _ => rfl⟩, rfl⟩

section Enqueue

variable (cf : Conf)

theorem apart_sampleFlowState (sample : ℕ) : ApartOnly (sampleFlowState cf sample) := by
  have hdepth : ∀ x v, ApartOnly (casWeak maxDepthAt x v) := fun x v =>
    .casWeak trivial Apart.refl fun s => ⟨⟨rfl, rfl, fun _ => rfl, fun _ => rfl⟩, rfl⟩
  have hcongested : ∀ x v, ApartOnly (cas congestedAt x v) := fun x v =>
    .cas trivial Apart.refl fun s _ => ⟨⟨rfl, rfl, fun _ => rfl, fun _ => rfl⟩, rfl⟩
  refine .bind ?_ fun _ => (apart_load _).bind fun _ => .ite ?_ ?_
  · refine (apart_load _).bind fun _ => .loop fun _ => .ite ?_ trivial
    exact (hdepth _ _).bind fun _ => .ite trivial trivial
  · refine (apart_load _).bind fun _ => .ite trivial ?_
    exact (hcongested _ _).bind fun _ => trivial
  · refine (apart_load _).bind fun _ => .ite trivial ((hcongested _ _).bind fun _ => .ite trivial ?_)
    exact (apart_load _).bind fun _ => trivial

theorem apart_reserveRemoteRound (n : ℕ) (m : Message) (st : ℕ × ℕ) :
    ApartOnly (reserveRemoteRound cf n m st) := by
  refine .ite trivial (.bind ?_ fun room => .ite trivial (.bind ?_ fun taken => .ite trivial trivial))
  · refine (apart_load _).bind fun _ => .ite ?_ trivial
    refine (apart_load _).bind fun _ => (apart_shadowHead n _).bind fun _ => .ite ?_ trivial
    exact (apart_sampleFlowState cf _).bind fun _ => trivial
  · refine ⟨trivial, fun s c s' b hf => ?_, fun _ => trivial⟩
    dsimp only at hf
    split at hf <;> cases hf
    · exact ⟨⟨rfl, rfl, fun _ => rfl, fun _ => rfl⟩, rfl⟩
    · exact .refl s

theorem apart_copyIn (k i : ℕ) (bytes : List UInt8) (off : ℕ) :
    ApartOnly (copyIn k i bytes off) := by
  induction bytes generalizing off with
  | nil => trivial
  | cons b bs ih =>
    exact .bind (.write trivial fun s => ⟨⟨rfl, rfl, fun _ => rfl, fun _ => rfl⟩, rfl⟩) fun _ => ih _

theorem apart_writeEntry (m : Message) (k : ℕ) : ApartOnly (writeEntry cf m k) := by
  have hcommit : ApartOnly (storeAt (.commit k) (readySeqAt (cf.index k)) (k + 1)) :=
    .write trivial fun s => ⟨⟨rfl, rfl, fun _ => rfl, fun _ => rfl⟩, rfl⟩
  exact .bind (apart_copyIn _ _ _ _) fun _ =>
    .ite (.bind (apart_copyIn _ _ _ _) fun _ => hcommit) hcommit

end Enqueue

/-! ### Good pairs -/

/-- How far a thread has got with a threshold and a version: reading them, and storing them in the
    copy of node `n`. `setting` is the setter between its two writes. -/
inductive Stage where
  | away
  | setting
  | version (v : ℕ)
  | threshold (t : ℕ)
  | pair (t v : ℕ)
  | half (n t : ℕ)
  | full (n t v : ℕ)

/-- The thread stands between its two stores into the copy of node `n`. -/
def Stage.writes (n : ℕ) : Stage → Prop
  | .half m _ => m = n
  | .full m _ _ => m = n
  | _ => False

/-- The thread has read the threshold and not yet the version. -/
def Stage.reads : Stage → Prop
  | .threshold _ | .half _ _ => True
  | _ => False

/-- The thread may do anything next. -/
structure Stage.Free (g : Stage) : Prop where
  setting : g ≠ .setting
  reads : ¬ g.reads
  writes : ∀ m, ¬ g.writes m

theorem free_away : Stage.Free .away := ⟨by simp, fun h => h, fun _ h => h⟩

theorem free_version (v : ℕ) : Stage.Free (.version v) := ⟨by simp, fun h => h, fun _ h => h⟩

theorem free_pair (t v : ℕ) : Stage.Free (.pair t v) := ⟨by simp, fun h => h, fun _ h => h⟩

/-- No setter stands between its two writes. -/
def Settled (γ : Party → Stage) : Prop := ∀ p, γ p ≠ .setting

def Good (s : Mem) (γ : Party → Stage) (t v : ℕ) : Prop :=
  v ≤ s.version ∧ (v = s.version → Settled γ → t = s.threshold)

def Stands (s : Mem) (γ : Party → Stage) : Stage → Prop
  | .away | .setting => True
  | .version v => v ≤ s.version
  | .threshold t => t = s.threshold
  | .pair t v => Good s γ t v
  | .half n t => t = s.threshold ∧ s.cached n = t
  | .full n t v => Good s γ t v ∧ s.cached n = t

structure Inv (s : Mem) (γ : Party → Stage) : Prop where
  pos : 1 ≤ s.version
  mail : ∀ n, ∀ m ∈ s.mail n, Good s γ m.threshold m.version
  stands : ∀ p, Stands s γ (γ p)
  alone : ∀ p q n, (γ p).writes n → (γ q).writes n → p = q
  cache : ∀ n, (∀ p, ¬ (γ p).writes n) → Good s γ (s.cached n) (s.cachedVersion n)

/-- Labels of a thread that has read the threshold and is going to read the version. -/
def betweenReads : Option Label → Bool
  | some (.copyThreshold _) | some (.copyVersion _) | some .readVersion => true
  | _ => false

/-- Labels of a thread between its two stores into the copy of node `n`. -/
def betweenStores (n : ℕ) : Option Label → Bool
  | some (.copyVersion m) | some (.fillVersion m) => m == n
  | _ => false

/-- A new threshold is stored when nobody stands between a read of the threshold and the read of the
    version that belongs to it, and a copy is written when nobody else is writing it. -/
def Orderly (ℓ : Party → Option Label) (_ : Party) : Label → Mem → Prop
  | .setThreshold, _ => ∀ q, betweenReads (ℓ q) = false
  | .copyThreshold n, _ | .fillThreshold n, _ => ∀ q, betweenStores n (ℓ q) = false
  | _, _ => True

def Fits (e : Option Label) : Stage → Prop
  | .threshold _ => betweenReads e = true
  | .half n _ => betweenReads e = true ∧ betweenStores n e = true
  | .full n _ _ => betweenStores n e = true
  | _ => True

def outline : Outline Party Mem Label Stage where
  inv := Inv
  lab := Fits
  cond := Orderly
  claim := fun _ _ _ => True

section Steps

variable {s s' : Mem} {γ γ' : Party → Stage} {p : Party} {g g' : Stage} {n t v : ℕ}

theorem settled_update (hg : γ p = g) (h : g ≠ .setting) (hs : Settled (Function.update γ p g')) :
    Settled γ := by
  intro q hq
  rcases eq_or_ne q p with rfl | hne
  · exact h (hg.symm.trans hq)
  · exact hs q (by rwa [Function.update_of_ne hne])

theorem Good.carry (h : Good s γ t v) (ht : s'.threshold = s.threshold)
    (hv : s'.version = s.version) (hs : Settled γ' → Settled γ) : Good s' γ' t v :=
  ⟨hv ▸ h.1, fun he hset => ht ▸ h.2 (hv ▸ he) (hs hset)⟩

theorem Stands.carry (h : Stands s γ g) (hgood : ∀ t v, Good s γ t v → Good s' γ' t v)
    (hv : s.version ≤ s'.version) (ht : g.reads → s'.threshold = s.threshold)
    (hc : ∀ m, g.writes m → s'.cached m = s.cached m) : Stands s' γ' g := by
  cases g with
  | away => trivial
  | setting => trivial
  | version w => exact Nat.le_trans h hv
  | threshold t => exact h.trans (ht trivial).symm
  | pair t w => exact hgood t w h
  | half n t => exact ⟨h.1.trans (ht trivial).symm, (hc n rfl).trans h.2⟩
  | full n t w => exact ⟨hgood t w h.1, (hc n rfl).trans h.2⟩

/-- One step of `p`: what the others know stays true, the messages stay good, at most one thread
    writes a copy, and a copy that nobody writes is good. -/
theorem Inv.step (hi : Inv s γ) (hgood : ∀ t v, Good s γ t v → Good s' (Function.update γ p g') t v)
    (hv : s.version ≤ s'.version) (ht : ∀ q, q ≠ p → (γ q).reads → s'.threshold = s.threshold)
    (hc : ∀ q, q ≠ p → ∀ m, (γ q).writes m → s'.cached m = s.cached m)
    (hmail : ∀ m, ∀ x ∈ s'.mail m, x ∈ s.mail m ∨ Good s γ x.threshold x.version)
    (own : Stands s' (Function.update γ p g') g')
    (alone : ∀ q, q ≠ p → ∀ m, g'.writes m → ¬ (γ q).writes m)
    (cache : ∀ m, ¬ g'.writes m → (∀ q, q ≠ p → ¬ (γ q).writes m) →
      Good s' (Function.update γ p g') (s'.cached m) (s'.cachedVersion m)) :
    Inv s' (Function.update γ p g') := by
  refine ⟨Nat.le_trans hi.pos hv, fun m x hx => ?_, fun q => ?_, fun q r m hq hr => ?_, fun m hm => ?_⟩
  · rcases hmail m x hx with hx | hx
    · exact hgood _ _ (hi.mail m x hx)
    · exact hgood _ _ hx
  · rcases eq_or_ne q p with rfl | hne
    · rwa [Function.update_self]
    · rw [Function.update_of_ne hne]
      exact (hi.stands q).carry hgood hv (ht q hne) (hc q hne)
  · rcases eq_or_ne q p with rfl | hne
    · rcases eq_or_ne r q with rfl | hne'
      · rfl
      · rw [Function.update_self] at hq
        rw [Function.update_of_ne hne'] at hr
        exact absurd hr (alone r hne' m hq)
    · rw [Function.update_of_ne hne] at hq
      rcases eq_or_ne r p with rfl | hne'
      · rw [Function.update_self] at hr
        exact absurd hq (alone q hne m hr)
      · rw [Function.update_of_ne hne'] at hr
        exact hi.alone q r m hq hr
  · refine cache m (fun h => hm p ?_) fun q hne h => hm q ?_
    · rwa [Function.update_self]
    · rwa [Function.update_of_ne hne]

/-- What the copies say when `p` writes as much before as after. -/
theorem Inv.cache_of_writes (hi : Inv s γ) (hg : γ p = g) (hw : ∀ m, g'.writes m ↔ g.writes m) (m : ℕ)
    (hp : ¬ g'.writes m) (hq : ∀ q, q ≠ p → ¬ (γ q).writes m) :
    Good s γ (s.cached m) (s.cachedVersion m) := by
  refine hi.cache m fun q => ?_
  rcases eq_or_ne q p with rfl | hne
  · rwa [hg, ← hw]
  · exact hq q hne

theorem Inv.alone_of_writes (hi : Inv s γ) (hg : γ p = g) (hw : ∀ m, g'.writes m ↔ g.writes m) (q : Party)
    (hne : q ≠ p) (m : ℕ) (hm : g'.writes m) : ¬ (γ q).writes m := by
  intro hq
  have hp : (γ p).writes m := by rwa [hg, ← hw]
  exact hne (hi.alone q p m hq hp)

/-- A thread learns something, or messages come and go. -/
theorem Inv.move (hi : Inv s γ) (hg : γ p = g) (hset : g ≠ .setting)
    (hw : ∀ m, g'.writes m ↔ g.writes m) (h : Same s s')
    (hmail : ∀ m, ∀ x ∈ s'.mail m, x ∈ s.mail m ∨ Good s γ x.threshold x.version)
    (hst : Stands s γ g') : Inv s' (Function.update γ p g') := by
  have hgood : ∀ t v, Good s γ t v → Good s' (Function.update γ p g') t v :=
    fun t v hgv => hgv.carry h.threshold h.version (settled_update hg hset)
  refine hi.step hgood (Nat.le_of_eq h.version.symm) (fun _ _ _ => h.threshold)
    (fun _ _ m _ => h.cached m) hmail ?_ (hi.alone_of_writes hg hw) fun m hp hq => ?_
  · exact hst.carry hgood (Nat.le_of_eq h.version.symm) (fun _ => h.threshold) fun m _ => h.cached m
  · rw [h.cached, h.cachedVersion]
    exact hgood _ _ (hi.cache_of_writes hg hw m hp hq)

/-- The setter stores a threshold: until it raises the version nothing is settled. -/
theorem Inv.set (hi : Inv s γ) (hg : γ p = g) (hw : ∀ m, ¬ g.writes m) (hreads : ∀ q, ¬ (γ q).reads) :
    Inv (thresholdAt.set t s) (Function.update γ p .setting) := by
  have hgood : ∀ t' v, Good s γ t' v →
      Good (thresholdAt.set t s) (Function.update γ p .setting) t' v := by
    intro t' v h
    refine ⟨h.1, fun _ hs => ?_⟩
    exact absurd (Function.update_self ..) (hs p)
  exact hi.step hgood (Nat.le_refl _) (fun q _ hq => absurd hq (hreads q)) (fun _ _ _ _ => rfl)
    (fun _ _ hx => .inl hx) trivial (fun _ _ _ h => h.elim)
    fun m hp hq => hgood _ _ (hi.cache_of_writes hg (fun m => iff_of_false id (hw m)) m hp hq)

/-- The setter raises the version: every version that is about is old now. -/
theorem Inv.raise (hi : Inv s γ) (hg : γ p = .setting) :
    Inv (thresholdVersionAt.set (s.version + 1) s) (Function.update γ p .away) := by
  have hgood : ∀ t v, Good s γ t v →
      Good (thresholdVersionAt.set (s.version + 1) s) (Function.update γ p .away) t v := by
    intro t v h
    refine ⟨Nat.le_succ_of_le h.1, fun he => ?_⟩
    have hle := h.1
    have heq : v = s.version + 1 := he
    omega
  exact hi.step hgood (Nat.le_succ _) (fun _ _ _ => rfl) (fun _ _ _ _ => rfl)
    (fun _ _ hx => .inl hx) trivial (fun _ _ _ h => h.elim)
    fun m hp hq => hgood _ _ (hi.cache_of_writes hg (fun _ => Iff.rfl) m hp hq)

theorem cached_set_of_ne {m : ℕ} (h : m ≠ n) : ((cachedThresholdAt n).set t s).cached m = s.cached m := by
  simp [cachedThresholdAt, cacheField, Mem.cached, h]

theorem cached_set_self : ((cachedThresholdAt n).set t s).cached n = t := by
  simp [cachedThresholdAt, cacheField, Mem.cached]

theorem cachedVersion_setThreshold {m : ℕ} :
    ((cachedThresholdAt n).set t s).cachedVersion m = s.cachedVersion m := by
  rcases eq_or_ne m n with rfl | h
  · simp [cachedThresholdAt, cacheField, Mem.cachedVersion]
  · simp [cachedThresholdAt, cacheField, Mem.cachedVersion, h]

theorem cached_setVersion {m : ℕ} :
    ((cachedThresholdVersionAt n).set v s).cached m = s.cached m := by
  rcases eq_or_ne m n with rfl | h
  · simp [cachedThresholdVersionAt, cacheField, Mem.cached]
  · simp [cachedThresholdVersionAt, cacheField, Mem.cached, h]

theorem cachedVersion_set_of_ne {m : ℕ} (h : m ≠ n) :
    ((cachedThresholdVersionAt n).set v s).cachedVersion m = s.cachedVersion m := by
  simp [cachedThresholdVersionAt, cacheField, Mem.cachedVersion, h]

theorem cachedVersion_set_self : ((cachedThresholdVersionAt n).set v s).cachedVersion n = v := by
  simp [cachedThresholdVersionAt, cacheField, Mem.cachedVersion]

/-- The first store into the copy of node `n`, which nobody else is writing. -/
theorem Inv.fill (hi : Inv s γ) (hg : γ p = g) (hset : g ≠ .setting) (hg₀ : ∀ m, ¬ g.writes m)
    (hn : ∀ q, ¬ (γ q).writes n) (hw : ∀ m, g'.writes m ↔ n = m)
    (own : Stands s γ g → Stands ((cachedThresholdAt n).set t s) (Function.update γ p g') g') :
    Inv ((cachedThresholdAt n).set t s) (Function.update γ p g') := by
  have hgood : ∀ t' v, Good s γ t' v →
      Good ((cachedThresholdAt n).set t s) (Function.update γ p g') t' v :=
    fun t' v h => h.carry rfl rfl (settled_update hg hset)
  refine hi.step hgood (Nat.le_refl _) (fun _ _ _ => rfl) (fun q _ m hm => ?_)
    (fun _ _ hx => .inl hx) (own (hg ▸ hi.stands p)) (fun q _ m hm => ?_) fun m hp hq => ?_
  · exact cached_set_of_ne fun h => hn q (h ▸ hm)
  · rw [← (hw m).mp hm]
    exact hn q
  · rw [cached_set_of_ne fun h => hp ((hw m).mpr h.symm), cachedVersion_setThreshold]
    refine hgood _ _ (hi.cache m fun q hm => ?_)
    rcases eq_or_ne q p with rfl | hne
    · exact hg₀ m (hg ▸ hm)
    · exact hq q hne hm

/-- The second store: the copy is good again. -/
theorem Inv.settle (hi : Inv s γ) (hg : γ p = .full n t v) :
    Inv ((cachedThresholdVersionAt n).set v s) (Function.update γ p .away) := by
  have hgood : ∀ t' v', Good s γ t' v' →
      Good ((cachedThresholdVersionAt n).set v s) (Function.update γ p .away) t' v' :=
    fun t' v' h => h.carry rfl rfl (settled_update hg (by simp))
  have hst := hi.stands p
  rw [hg] at hst
  obtain ⟨hpair, hcached⟩ := hst
  refine hi.step hgood (Nat.le_refl _) (fun _ _ _ => rfl) (fun q _ m hm => cached_setVersion)
    (fun _ _ hx => .inl hx) trivial (fun q _ m hm => hm.elim) fun m hp hq => ?_
  rw [cached_setVersion]
  rcases eq_or_ne m n with rfl | hm
  · rw [cachedVersion_set_self, hcached]
    exact hgood _ _ hpair
  · rw [cachedVersion_set_of_ne hm]
    refine hgood _ _ (hi.cache m fun q hqm => ?_)
    rcases eq_or_ne q p with rfl | hne
    · rw [hg] at hqm
      exact hm hqm.symm
    · exact hq q hne hqm

/-! ### The calls -/

abbrev Does (p : Party) {α : Type} (c : Call α) (Q : α → Stage → Prop) (g : Stage) : Prop :=
  wp outline p (fun _ _ => True) c Q g

/-- Nothing is asked of a thread that neither writes nor has read a threshold alone. -/
theorem Stage.Free.fits {e : Option Label} (h : g.Free) : Fits e g := by
  cases g with
  | threshold t => exact absurd trivial h.reads
  | half n t => exact absurd trivial h.reads
  | full n t v => exact absurd rfl (h.writes n)
  | _ => trivial

/-- A thread between its reads stands before one of the steps that say so. -/
theorem betweenReads_of_reads {e : Option Label} (h : Fits e g) (hr : g.reads) :
    betweenReads e = true := by
  cases g with
  | threshold t => exact h
  | half n t => exact h.1
  | _ => exact hr.elim

theorem betweenStores_of_writes {e : Option Label} (h : Fits e g) (hw : g.writes n) :
    betweenStores n e = true := by
  cases g with
  | half m t =>
    cases hw
    exact h.2
  | full m t v =>
    cases hw
    exact h
  | _ => exact hw.elim

variable {α β : Type}

/-- The steps that have nothing to do with thresholds. -/
theorem wp_plain {c : Call α} (hc : ApartOnly c) (hg : g.Free) :
    Does p c (fun _ g' => g' = g) g := by
  refine hc.wp ⟨fun s s' γ hγ hs hi => ?_, hg.fits, fun e _ => hg.fits, fun _ _ _ => trivial, trivial⟩
  have hi' := hi.move hγ hg.setting (fun _ => Iff.rfl) hs.toSame (fun m x hx => .inl (hs.mail ▸ hx))
    (hγ ▸ hi.stands p)
  rwa [← hγ, Function.update_eq_self] at hi'

theorem wp_plain_bind {c : Call α} {k : α → Call β} {Q : β → Stage → Prop} (hg : g.Free)
    (hc : ApartOnly c) (hk : ∀ a, Does p (k a) Q g) : Does p (c.bind k) Q g := by
  refine wp_bind (wp_mono (wp_plain hc hg) ?_)
  rintro a _ - rfl
  exact hk a

/-- A read that tells nothing that would have to be remembered. -/
theorem wp_readAny {place : Place Mem α} {k : α → Call β} {Q : β → Stage → Prop} (hg : g.Free)
    (hk : ∀ a, Does p (k a) Q g) : Does p ((load place).bind k) Q g :=
  wp_bind (wp_learn hg.fits hg.fits trivial fun _ _ _ => ⟨trivial, hk _⟩)

/-- The version first, then the threshold: a good pair. -/
theorem wp_readVersion {k : ℕ → Call β} {Q : β → Stage → Prop}
    (hk : ∀ v, Does p (k v) Q (.version v)) : Does p ((load thresholdVersionAt).bind k) Q .away := by
  refine wp_bind (wp_read trivial fun s γ hpre => ⟨trivial, .version s.version, trivial, ?_, trivial, hk _⟩)
  exact hpre.inv.move hpre.own (by simp) (fun _ => Iff.rfl) (.refl s) (fun _ _ hx => .inl hx)
    (Nat.le_refl s.version)

theorem wp_readThreshold {k : ℕ → Call β} {Q : β → Stage → Prop}
    (hk : ∀ t, Does p (k t) Q (.pair t v)) : Does p ((load thresholdAt).bind k) Q (.version v) := by
  refine wp_bind (wp_read trivial fun s γ hpre =>
    ⟨trivial, .pair s.threshold v, trivial, ?_, trivial, hk _⟩)
  have hv : v ≤ s.version := by
    have h := hpre.inv.stands p
    rwa [hpre.own] at h
  exact hpre.inv.move hpre.own (by simp) (fun _ => Iff.rfl) (.refl s) (fun _ _ hx => .inl hx)
    ⟨hv, fun _ _ => rfl⟩

/-- The second store. -/
theorem wp_fillVersion {k : Unit → Call β} {Q : β → Stage → Prop} (hk : Does p (k ()) Q .away) :
    Does p ((storeAt (.fillVersion n) (cachedThresholdVersionAt n) v).bind k) Q (.full n t v) := by
  refine ⟨by simp [outline, Fits, betweenStores], fun s γ hpre => ⟨trivial, fun c s' b hf => ?_⟩⟩
  cases hf
  exact ⟨.away, trivial, hpre.inv.settle hpre.own, hk⟩

/-- Nobody writes the copy, as the condition says. -/
theorem not_writes_of_pre {e : Label} (hpre : outline.Pre p e g s γ)
    (he : ∀ ℓ, Orderly ℓ p e s → ∀ q, betweenStores n (ℓ q) = false) (q : Party) :
    ¬ (γ q).writes n := by
  obtain ⟨ℓ, hℓ, hcond⟩ := hpre.run
  intro hw
  have h := betweenStores_of_writes (hℓ q) hw
  rw [he ℓ hcond q] at h
  cases h

/-- Both stores of a pair. -/
theorem wp_fill {k : Unit → Call β} {Q : β → Stage → Prop} (hg : g.Free)
    (hgood : ∀ s γ, Inv s γ → γ p = g → Good s γ t v) (hk : Does p (k ()) Q .away) :
    Does p ((storeAt (.fillThreshold n) (cachedThresholdAt n) t).bind fun _ =>
      (storeAt (.fillVersion n) (cachedThresholdVersionAt n) v).bind k) Q g := by
  refine ⟨hg.fits, fun s γ hpre => ⟨trivial, fun c s' b hf => ?_⟩⟩
  cases hf
  refine ⟨.full n t v, trivial, ?_, wp_fillVersion hk⟩
  refine hpre.inv.fill hpre.own hg.setting hg.writes (not_writes_of_pre hpre fun _ h => h)
    (fun _ => Iff.rfl) fun _ => ⟨?_, cached_set_self⟩
  exact (hgood s γ hpre.inv hpre.own).carry rfl rfl (settled_update hpre.own hg.setting)

theorem good_of_pair (hi : Inv s γ) (hg : γ p = .pair t v) : Good s γ t v := by
  have h := hi.stands p
  rwa [hg] at h

theorem wp_refreshCachedThreshold : Does p (refreshCachedThreshold n) (fun _ g => g = .away) .away := by
  refine wp_readVersion fun remote => wp_readAny (free_version _) fun version => ?_
  by_cases hne : remote ≠ version
  · rw [if_pos hne]
    refine wp_readThreshold fun t => wp_fill (free_pair _ _) (fun _ _ => good_of_pair) ?_
    exact wp_learn trivial trivial trivial fun _ _ _ => ⟨trivial, rfl⟩
  · rw [if_neg hne]
    refine wp_read trivial fun s γ hpre => ⟨trivial, .away, trivial, ?_, trivial, rfl⟩
    exact hpre.inv.move hpre.own (by simp) (fun _ => Iff.rfl) (.refl s) (fun _ _ hx => .inl hx) trivial

theorem wp_refresh_bind {k : ℕ → Call β} {Q : β → Stage → Prop} (hk : ∀ t, Does p (k t) Q .away) :
    Does p ((refreshCachedThreshold n).bind k) Q .away := by
  refine wp_bind (wp_mono wp_refreshCachedThreshold ?_)
  rintro t _ - rfl
  exact hk t

variable {cf : Conf}

theorem wp_flowResultAfterEnqueueCached (newTail : ℕ) :
    Does p (flowResultAfterEnqueueCached cf newTail n) (fun _ g => g = .away) .away := by
  have hrest : ∀ threshold, Does p (if threshold = 0 then .ret ubCommSendCongested else
      (loadAt (.shadow n) (shadowHeadAt n)).bind fun cached =>
        if newTail - cached < threshold then .ret ubCommOk
        else (refreshCachedThreshold n).bind fun _ => (load headAt).bind fun fresh =>
          (store (shadowHeadAt n) fresh).bind fun _ =>
            sampleFlowState cf (newTail - fresh)) (fun _ g => g = .away) .away := by
    intro threshold
    split
    · exact ⟨trivial, rfl⟩
    refine wp_plain_bind free_away (apart_load _) fun cached => ?_
    split
    · exact ⟨trivial, rfl⟩
    refine wp_refresh_bind fun _ => wp_plain_bind free_away (apart_load _) fun fresh =>
      wp_plain_bind free_away (apart_shadowHead n fresh) fun _ => ?_
    exact wp_plain (apart_sampleFlowState cf _) free_away
  refine wp_bind (wp_readAny free_away fun threshold =>
    wp_readAny free_away fun version => ?_)
  split
  · exact wp_mono wp_refreshCachedThreshold (by rintro t _ - rfl; exact hrest t)
  · exact ⟨trivial, hrest threshold⟩

theorem wp_enqueueRemote (m : Message) :
    Does p (enqueueRemote cf n m) (fun _ g => g = .away) .away := by
  unfold enqueueRemote
  split
  · exact ⟨trivial, rfl⟩
  refine wp_plain_bind free_away (apart_load _) fun tail => wp_plain_bind
    free_away (.loop fun st => apart_reserveRemoteRound cf n m st) fun ticket => ?_
  cases ticket with
  | error e => exact ⟨trivial, rfl⟩
  | ok k => exact wp_plain_bind free_away (apart_writeEntry cf m k) fun _ =>
      wp_flowResultAfterEnqueueCached _

/-- The threshold first, then the version: a good pair because no threshold was stored between. -/
theorem wp_tryPopulateCache : Does p (tryPopulateCache n) (fun _ g => g = .away) .away := by
  refine wp_plain_bind free_away (apart_getRemoteRing n) fun ret => ?_
  split
  · exact ⟨trivial, rfl⟩
  refine wp_plain_bind free_away (apart_resetShadowHead n) fun _ => ?_
  refine ⟨trivial, fun s γ hpre => ⟨trivial, fun c s' b hf => ?_⟩⟩
  cases hf
  refine ⟨.threshold s.threshold, trivial, ?_, ?_⟩
  · exact hpre.inv.move hpre.own (by simp) (fun _ => Iff.rfl) (.refl s) (fun _ _ hx => .inl hx) rfl
  have hget : thresholdAt.get s = s.threshold := rfl
  rw [hget]
  generalize s.threshold = t
  refine ⟨rfl, fun s γ hpre => ⟨trivial, fun c s' b hf => ?_⟩⟩
  cases hf
  refine ⟨.half n t, trivial, ?_, ?_⟩
  · exact hpre.inv.fill hpre.own (by simp) (fun _ h => h) (not_writes_of_pre hpre fun _ h => h)
      (fun _ => Iff.rfl) fun hst => ⟨hst, cached_set_self⟩
  refine ⟨⟨rfl, by simp [betweenStores]⟩, fun s γ hpre => ⟨trivial, fun c s' b hf => ?_⟩⟩
  cases hf
  refine ⟨.full n t s.version, trivial, ?_, ?_⟩
  · have hst := hpre.inv.stands p
    rw [hpre.own] at hst
    exact hpre.inv.move hpre.own (by simp) (fun _ => Iff.rfl) (.refl s) (fun _ _ hx => .inl hx)
      ⟨⟨Nat.le_refl _, fun _ _ => hst.1⟩, hst.2⟩
  refine wp_fillVersion (wp_plain_bind free_away (apart_cacheInitialized n true) fun _ => ?_)
  exact ⟨trivial, rfl⟩

theorem wp_send (k : ℕ) (m : Message) (hg : g.Free) :
    Does p (send cf n k m) (fun _ g => g.Free) g := by
  have hrest : ∀ populated, Does p (if populated ≠ ubCommOk then
      (unlockShared n k).bind fun _ => .ret populated
      else (enqueueRemote cf n m).bind fun ret => (unlockShared n k).bind fun _ => .ret ret)
      (fun _ g => g.Free) .away := by
    intro populated
    split
    · exact wp_plain_bind free_away (apart_unlockShared n k) fun _ => ⟨trivial, free_away⟩
    refine wp_bind (wp_mono (wp_enqueueRemote m) ?_)
    rintro ret _ - rfl
    exact wp_plain_bind free_away (apart_unlockShared n k) fun _ => ⟨trivial, free_away⟩
  refine ⟨hg.fits, fun s γ hpre => ⟨trivial, fun c s' b hf => ?_⟩⟩
  cases hf
  refine ⟨.away, trivial, ?_, ?_⟩
  · exact hpre.inv.move hpre.own hg.setting (fun m => iff_of_false id (hg.writes m)) (.refl s)
      (fun _ _ hx => .inl hx) trivial
  dsimp only [ret_bind]
  split
  · exact ⟨trivial, free_away⟩
  refine wp_plain_bind free_away (apart_lockShared n k) fun _ =>
    wp_plain_bind free_away (apart_load _) fun ready => wp_bind ?_
  split
  · exact ⟨trivial, hrest _⟩
  · exact wp_mono wp_tryPopulateCache (by rintro populated _ - rfl; exact hrest populated)

theorem wp_removeNodeCache (hg : g.Free) : Does p (removeNodeCache n) (fun _ g => g.Free) g := by
  refine wp_plain_bind hg (apart_lockUnique n) fun _ =>
    wp_plain_bind hg (apart_resetShadowHead n) fun _ => wp_fill hg (fun s γ hi _ => ?_) ?_
  · -- the ring's version is never `0`
    have hpos := hi.pos
    exact ⟨Nat.zero_le _, fun h => by omega⟩
  · refine wp_plain_bind free_away (apart_cacheInitialized n false) fun _ =>
      wp_plain_bind free_away (apart_lookup n false) fun _ => ?_
    exact wp_mono (wp_plain (apart_unlockUnique n) free_away) (by rintro _ _ - rfl; exact free_away)

theorem wp_updateCachedCongestionThreshold (m : FlowConfigUpdateMessage) :
    Does p (updateCachedCongestionThreshold n m) (fun _ g => g.Free) (.pair m.threshold m.version) := by
  refine wp_plain_bind (free_pair _ _) (apart_lockUnique n) fun _ => wp_readAny (free_pair _ _) fun _ => ?_
  split
  · refine wp_mono (wp_plain (apart_unlockUnique n) (free_pair _ _)) ?_
    rintro _ _ - rfl
    exact free_pair _ _
  · refine wp_fill (free_pair _ _) (fun _ _ => good_of_pair) ?_
    exact wp_mono (wp_plain (apart_unlockUnique n) free_away) (by rintro _ _ - rfl; exact free_away)

theorem wp_onFlowConfigUpdate (hg : g.Free) : Does p (onFlowConfigUpdate n) (fun _ g => g.Free) g := by
  refine ⟨hg.fits, fun s γ hpre => ⟨trivial, fun c s' m hf => ?_⟩⟩
  obtain ⟨_, hm, hs⟩ := Option.map_eq_some_iff.mp hf
  cases hs
  refine ⟨.pair m.threshold m.version, trivial, ?_, wp_updateCachedCongestionThreshold m⟩
  refine hpre.inv.move hpre.own hg.setting (fun k => iff_of_false id (hg.writes k))
    ⟨rfl, rfl, fun _ => rfl, fun _ => rfl⟩ (fun k x hx => .inl ?_)
    (hpre.inv.mail n m (List.mem_of_getElem? hm))
  rcases eq_or_ne k n with rfl | hne
  · have hx' : x ∈ (s.mail k).eraseIdx c := by simpa [mailAt] using hx
    exact List.mem_of_mem_eraseIdx hx'
  · simpa [mailAt, hne] using hx

/-- The message is a good pair, so that it may be sent to everybody. -/
theorem wp_broadcastFlowConfigUpdate (m : FlowConfigUpdateMessage) (ns : List ℕ) :
    Does p (broadcastFlowConfigUpdate m ns) (fun _ g => g = .pair m.threshold m.version)
      (.pair m.threshold m.version) := by
  induction ns with
  | nil => exact ⟨trivial, rfl⟩
  | cons n ns ih =>
    refine ⟨trivial, fun s γ hpre => ⟨trivial, fun c s' b hf => ?_⟩⟩
    cases hf
    refine ⟨.pair m.threshold m.version, trivial, by rw [hpre.update]; exact hpre.inv, ?_⟩
    dsimp only [ret_bind]
    split
    · refine wp_bind (wp_rmw trivial fun s γ hpre =>
        ⟨trivial, .pair m.threshold m.version, trivial, ?_, trivial, ih⟩)
      have hgood := good_of_pair hpre.inv hpre.own
      refine hpre.inv.move hpre.own (by simp) (fun _ => Iff.rfl)
        ⟨rfl, rfl, fun _ => rfl, fun _ => rfl⟩ (fun k x hx => ?_) hgood
      rcases eq_or_ne k n with rfl | hne
      · have hx' : x = m ∨ x ∈ s.mail k := by simpa [mailAt] using hx
        rcases hx' with rfl | hx'
        · exact .inr hgood
        · exact .inl hx'
      · exact .inl (by simpa [mailAt, hne] using hx)
    · exact ih

theorem not_reads_of_pre (hpre : outline.Pre p .setThreshold g s γ) (q : Party) : ¬ (γ q).reads := by
  obtain ⟨ℓ, hℓ, hcond⟩ := hpre.run
  intro hr
  have h := betweenReads_of_reads (hℓ q) hr
  rw [hcond q] at h
  cases h

theorem wp_configureCongestionThreshold (percent : ℕ) (hg : g.Free) :
    Does p (configureCongestionThreshold cf percent)
      (fun r g' => g' = .away ∨ r ≠ ubCommOk ∧ g'.Free) g := by
  unfold configureCongestionThreshold
  split
  · exact ⟨hg.fits, .inr ⟨by decide, hg⟩⟩
  refine wp_bind (wp_store hg.fits fun s γ hpre => ⟨trivial, .setting, trivial, ?_, trivial, ?_⟩)
  · exact hpre.inv.set hpre.own hg.writes (not_reads_of_pre hpre)
  refine wp_bind (wp_rmw trivial fun s γ hpre => ⟨trivial, .away, trivial, ?_, trivial, ?_⟩)
  · exact hpre.inv.raise hpre.own
  refine wp_plain_bind free_away (.bind (apart_load _) fun _ => .bind (apart_load _) fun _ => trivial)
    fun used => wp_plain_bind free_away (apart_sampleFlowState cf used) fun _ => ?_
  exact ⟨trivial, .inl rfl⟩

theorem wp_setCongestionThreshold (percent : ℕ) (hg : g.Free) :
    Does p (setCongestionThreshold cf percent) (fun _ g' => g'.Free) g := by
  have hsend : ∀ t v, Does p ((broadcastFlowConfigUpdate ⟨v, t⟩ (List.range maxNodesLimit)).bind
      fun _ => .ret ubCommOk) (fun _ g' => g'.Free) (.pair t v) := by
    intro t v
    refine wp_bind (wp_mono (wp_broadcastFlowConfigUpdate ⟨v, t⟩ _) ?_)
    rintro _ _ - rfl
    exact ⟨trivial, free_pair _ _⟩
  refine wp_bind (wp_mono (wp_configureCongestionThreshold percent hg) ?_)
  rintro r g' hl hr
  by_cases hok : r ≠ ubCommOk
  · rw [if_pos hok]
    refine ⟨hl, ?_⟩
    rcases hr with rfl | ⟨-, hfree⟩
    · exact free_away
    · exact hfree
  rw [if_neg hok]
  obtain rfl : g' = .away := hr.resolve_right fun h => hok h.1
  refine ⟨trivial, fun s γ hpre => ⟨trivial, fun c s' b hf => ?_⟩⟩
  cases hf
  refine ⟨.away, trivial, by rw [hpre.update]; exact hpre.inv, ?_⟩
  dsimp only [ret_bind]
  split
  · refine ⟨trivial, fun s γ hpre => ⟨trivial, fun c s' b hf => ?_⟩⟩
    cases hf
    refine ⟨.threshold s.threshold, trivial, ?_, ?_⟩
    · exact hpre.inv.move hpre.own (by simp) (fun _ => Iff.rfl) (.refl s) (fun _ _ hx => .inl hx) rfl
    have hget : thresholdAt.get s = s.threshold := rfl
    rw [hget]
    generalize s.threshold = t
    refine ⟨rfl, fun s γ hpre => ⟨trivial, fun c s' b hf => ?_⟩⟩
    cases hf
    refine ⟨.pair t s.version, trivial, ?_, hsend _ _⟩
    have hst := hpre.inv.stands p
    rw [hpre.own] at hst
    exact hpre.inv.move hpre.own (by simp) (fun _ => Iff.rfl) (.refl s) (fun _ _ hx => .inl hx)
      ⟨Nat.le_refl _, fun _ _ => hst⟩
  · exact wp_readVersion fun v => wp_readThreshold fun t => hsend t v

end Steps

/-! ### Every run -/

def spec : Spec Party Mem Label Op ℤ Unit Stage where
  toOutline := outline
  rest := fun _ _ g => g.Free
  moves := fun _ _ _ _ => True
  good := fun _ _ _ _ => True

theorem proved (cf : Conf) : spec.Proved (client cf) where
  stay := fun _ _ _ _ _ => trivial
  idle := fun _ _ _ hr => ⟨hr.fits, trivial⟩
  start := fun _ _ _ _ _ _ => trivial
  call := by
    rintro p _ op g - hg
    have hdone : ∀ r : ℤ, spec.after (client cf) p () op (.ret r) g :=
      fun r => ⟨Stage.Free.fits hg, trivial, hg⟩
    cases p with
    | setter k =>
      cases op with
      | setCongestionThreshold percent =>
        exact wp_mono (wp_setCongestionThreshold percent hg) fun _ _ _ h => ⟨trivial, h⟩
      | send m => exact hdone _
      | onFlowConfigUpdate => exact hdone _
      | removeNodeCache => exact hdone _
    | producer n k =>
      cases op with
      | setCongestionThreshold percent => exact hdone _
      | send m => exact wp_mono (wp_send k m hg) fun _ _ _ h => ⟨trivial, h⟩
      | onFlowConfigUpdate =>
        exact wp_bind (wp_mono (wp_onFlowConfigUpdate hg) fun _ _ hl h => ⟨hl, trivial, h⟩)
      | removeNodeCache =>
        exact wp_bind (wp_mono (wp_removeNodeCache hg) fun _ _ hl h => ⟨hl, trivial, h⟩)

theorem inv_init (cf : Conf) : Inv (FlowRun.init cf).mem fun _ => .away where
  pos := Nat.le_refl 1
  mail := by simp [FlowRun.init, Mem.init]
  stands := fun _ => trivial
  alone := fun _ _ _ h => h.elim
  cache := fun _ _ => ⟨Nat.zero_le _, fun h => by cases h⟩

theorem holds_init (cf : Conf) : spec.Holds (client cf) (FlowRun.init cf) fun _ => .away where
  inv := inv_init cf
  moved := fun _ => ⟨.away, trivial⟩
  idle := fun _ _ => free_away
  busy := by simp [FlowRun.init]

/-- A copy with the ring's version has the ring's threshold. -/
def Coherent (s : Mem) : Prop := ∀ n, s.cachedVersion n = s.version → s.cached n = s.threshold

/-- In every run in which no threshold is stored between somebody's reads of threshold and version,
    and no copy is written by two threads at a time, the copies are coherent whenever nobody is in a
    call. -/
theorem coherent_of_orderly {cf : Conf} {x : FlowRun}
    (hx : Config.Reach (client cf) Orderly (FlowRun.init cf) x) (hq : x.Quiescent) :
    Coherent x.mem := by
  obtain ⟨γ, hγ⟩ := (proved cf).sound (holds_init cf) hx
  have hfree : ∀ p, (γ p).Free := fun p => hγ.idle p (hq p)
  intro n hn
  exact (hγ.inv.cache n fun p => (hfree p).writes n).2 hn fun p => (hfree p).setting

/-- `Orderly`, as a check on a configuration in which nobody but `L` is in a call. -/
def orderlyHere (L : List Party) (x : FlowRun) (p : Party) : Bool :=
  match x.labels p with
  | some .setThreshold => L.all fun q => !betweenReads (x.labels q)
  | some (.copyThreshold n) | some (.fillThreshold n) => L.all fun q => !betweenStores n (x.labels q)
  | _ => true

theorem meets_of_orderlyHere (L : List Party) (x : FlowRun) (p : Party)
    (hL : ∀ q, q ∉ L → x.pc q = none) (h : orderlyHere L x p = true) : x.Meets Orderly p := by
  intro e he
  have hall : ∀ f : Option Label → Bool, f none = false → (L.all fun q => !f (x.labels q)) = true →
      ∀ q, f (x.labels q) = false := by
    intro f hnone hf q
    by_cases hq : q ∈ L
    · simpa using List.all_eq_true.mp hf q hq
    · rw [Config.labels, hL q hq]
      exact hnone
  rw [orderlyHere, he] at h
  cases e with
  | setThreshold => exact hall betweenReads rfl h
  | copyThreshold n => exact hall (betweenStores n) rfl h
  | fillThreshold n => exact hall (betweenStores n) rfl h
  | _ => trivial

/-- A ring of four slots. -/
def small : Conf := ⟨2, 64, by decide⟩

/-- A message without a body. -/
def note : Message := ⟨⟨0, 0, 0, 0, 0, 0⟩, [], rfl⟩

/-- The threshold is set to half the ring, and node 0 alone is told. -/
def halve : List (Config.Piece Party Label Op) :=
  [.call (.setter 0) (.setCongestionThreshold 50), .upTo (.setter 0) .readVersion,
    .steps (.setter 0) [0, 1, 0], .finish (.setter 0)]

theorem quiescent_of_idle {x : FlowRun} {L : List Party} (h : ∀ p ∈ L, (x.pc p).isNone)
    (hL : ∀ p, p ∉ L → x.pc p = none) : x.Quiescent := by
  intro p
  by_cases hp : p ∈ L
  · exact Option.isNone_iff_eq_none.mp (h p hp)
  · exact hL p hp

/-- Node 0 finds the ring, the threshold is changed, the message arrives: the copy is the new pair. -/
theorem coherent_of_orderly_updated :
    ∃ x, Config.Reach (client small) Orderly (FlowRun.init small) x ∧ x.Quiescent ∧
      x.mem.cachedVersion 0 = x.mem.version ∧ x.mem.version = 2 ∧ Coherent x.mem := by
  have hrun : ∃ x, Config.Reach (client small) Orderly (FlowRun.init small) x ∧
      (x.mem.cachedVersion 0 = x.mem.version ∧ x.mem.version = 2 ∧
        ∀ p ∈ [Party.setter 0, .producer 0 0], (x.pc p).isNone) ∧ _ :=
    Config.reach_of_runAll_among [.setter 0, .producer 0 0] (meets_of_orderlyHere _)
      ([.call (.producer 0 0) (.send note), .steps (.producer 0 0) [1], .finish (.producer 0 0)]
        ++ halve ++ [.call (.producer 0 0) .onFlowConfigUpdate, .finish (.producer 0 0)])
      (by simp [Config.Piece.thread, halve]) (fun _ => rfl) (by decide +kernel)
  obtain ⟨x, hx, ⟨hsame, htwo, hidle⟩, hL⟩ := hrun
  have hq := quiescent_of_idle hidle hL
  exact ⟨x, hx, hq, hsame, htwo, coherent_of_orderly hx hq⟩

/-- Node 0 has read the old threshold when the new one is set, and reads the new version. The message
    that would correct the copy is not newer and is ignored. -/
theorem tornPair_violated :
    ∃ x, Config.Reachable (client small) (FlowRun.init small) x ∧ x.Quiescent ∧ ¬ Coherent x.mem := by
  have hrun : ∃ x, Config.Reachable (client small) (FlowRun.init small) x ∧
      (x.mem.cachedVersion 0 = x.mem.version ∧ x.mem.cached 0 ≠ x.mem.threshold ∧
        ∀ p ∈ [Party.setter 0, .producer 0 0], (x.pc p).isNone) ∧ _ :=
    Config.reachable_of_runAll_among [.setter 0, .producer 0 0]
      ([.call (.producer 0 0) (.send note), .steps (.producer 0 0) [1],
        .upTo (.producer 0 0) (.copyThreshold 0)] ++ halve ++ [.finish (.producer 0 0),
        .call (.producer 0 0) .onFlowConfigUpdate, .finish (.producer 0 0)])
      (by simp [Config.Piece.thread, halve]) (fun _ => rfl) (by decide +kernel)
  obtain ⟨x, hx, ⟨hsame, hne, hidle⟩, hL⟩ := hrun
  exact ⟨x, hx, quiescent_of_idle hidle hL, fun hc => hne (hc 0 hsame)⟩

end FlowConfig

end Ring

end UbsAtomic
