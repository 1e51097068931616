import UbsAtomic.Lock.Client

/-! Mutual exclusion of S, SX and X.

    Every thread keeps account of what it has taken out of `lock_word`. The word is what is left:

        lock_word = 65536 - 65536·X - 32768·SX - U

    with `U` the units of all S leaders. On a node with reference count `r`, `u` units are out, `h`
    threads hold S, `p` leaders have a unit that is not in `r` yet, `q` releasers took the last
    reference and still owe their unit, and `f` rejected unlocks have not put their decrement back:

        p + q + [0 < r] + [max r 0 < h + f] ≤ u

    The node's last term is what the exclusion rests on: an S holder that is not in `r` is still
    covered by a unit. A rejected `unlock_s` puts its decrement back blindly; when the count has
    left the negative range in between, that makes a reference nobody owns. -/

namespace UbsAtomic

open Conc Conc.Prog

namespace Exclusion

/-- What a thread has taken. -/
structure Ghost where
  s : ℕ
  sx : ℕ
  x : ℕ
  unit : ℤ
  lead : ℕ
  last : ℕ
  fail : ℕ

/-- The units out on a node cover its holders. -/
def Covered (r u p q h f : ℤ) : Prop :=
  p + q + (if 0 < r then 1 else 0) + (if max r 0 < h + f then 1 else 0) ≤ u

structure Inv (s : Mem) (γ : Actor → Ghost) : Prop where
  word : s.shm.lockWord = xLockDecr - xLockDecr * total (·.x) γ - xLockHalfDecr * total (·.sx) γ
    - total (·.unit) γ
  nonneg : 0 ≤ s.shm.lockWord
  oneSx : total (·.sx) γ ≤ 1
  node : ∀ n, Covered (s.ll n).globalReadRefCount (onNode n (·.unit) γ) (onNode n (·.lead) γ)
    (onNode n (·.last) γ) (onNode n (·.s) γ) (onNode n (·.fail) γ)
  token : ∀ n, (s.ll n).localIsReserveLock = .i

/-- A rejected `unlock_s` puts its decrement back while the count is still negative. -/
def Compensates (_ : Actor → Option Label) (_ : Actor) (e : Label) (s : Mem) : Prop :=
  ∀ n, e = .refCompensate n → (s.ll n).globalReadRefCount < 0

def outline : Outline Actor Mem Label Ghost := ⟨Inv, fun _ _ => True, Compensates, fun _ _ _ => True⟩

/-- The ghost accounts for at least the holds. -/
def Bound (h : Holds) (g : Ghost) : Prop := h.s ≤ g.s ∧ h.sx ≤ g.sx ∧ h.x ≤ g.x

def spec : Spec Actor Mem Label Op Result Holds Ghost where
  toOutline := outline
  rest := fun _ => Bound
  moves := fun _ h _ => Bound h
  good := fun _ _ _ _ => True

/-! ### What the invariant says -/

theorem onNode_unit_nonneg {s : Mem} {γ : Actor → Ghost} (h : Inv s γ) (n : NodeId) :
    0 ≤ onNode n (·.unit) γ := by
  have hn := h.node n
  have hp : 0 ≤ onNode n (fun g => (g.lead : ℤ)) γ := onNode_nonneg (by simp) n
  have hq : 0 ≤ onNode n (fun g => (g.last : ℤ)) γ := onNode_nonneg (by simp) n
  unfold Covered at hn
  split_ifs at hn <;> omega

theorem total_unit_nonneg {s : Mem} {γ : Actor → Ghost} (h : Inv s γ) : 0 ≤ total (·.unit) γ := by
  rw [total_eq_sum_onNode]
  exact Finset.sum_nonneg fun n _ => onNode_unit_nonneg h n

/-- An S holder is covered by a unit of its node. -/
theorem total_unit_pos {s : Mem} {γ : Actor → Ghost} (h : Inv s γ) {l : Location}
    (hl : 0 < (γ (.app l)).s) : 0 < total (·.unit) γ := by
  have hle : onNode l.nodeId (·.unit) γ ≤ total (·.unit) γ := by
    rw [total_eq_sum_onNode]
    exact le_sum_of_nonneg (fun n => onNode_unit_nonneg h n) _
  have hn := h.node l.nodeId
  have hp : 0 ≤ onNode l.nodeId (fun g => (g.lead : ℤ)) γ := onNode_nonneg (by simp) _
  have hq : 0 ≤ onNode l.nodeId (fun g => (g.last : ℤ)) γ := onNode_nonneg (by simp) _
  have hf : 0 ≤ onNode l.nodeId (fun g => (g.fail : ℤ)) γ := onNode_nonneg (by simp) _
  have hs : ((γ (.app l)).s : ℤ) ≤ onNode l.nodeId (fun g => (g.s : ℤ)) γ :=
    le_onNode (f := fun g : Ghost => (g.s : ℤ)) (by simp) l
  unfold Covered at hn
  split_ifs at hn <;> omega

/-- Somebody has X: nothing else is out. -/
theorem alone_of_x {s : Mem} {γ : Actor → Ghost} (h : Inv s γ) {l : Location}
    (hl : 0 < (γ (.app l)).x) :
    s.shm.lockWord = 0 ∧ total (fun g => (g.x : ℤ)) γ = 1 ∧ total (fun g => (g.sx : ℤ)) γ = 0 ∧
      total (·.unit) γ = 0 := by
  have hw := h.word
  have h0 := h.nonneg
  have hu := total_unit_nonneg h
  have hx := le_total (f := fun g : Ghost => (g.x : ℤ)) (γ := γ) (by simp) l
  have hsx := total_nonneg (f := fun g : Ghost => (g.sx : ℤ)) (γ := γ) (by simp)
  simp only [xLockDecr, xLockHalfDecr] at hw
  omega

/-- The exclusion the invariant gives. -/
theorem excluded {s : Mem} {γ : Actor → Ghost} (h : Inv s γ) {l l' : Location} (hne : l ≠ l')
    (hl : 0 < (γ (.app l)).x) :
    (γ (.app l')).s = 0 ∧ (γ (.app l')).sx = 0 ∧ (γ (.app l')).x = 0 := by
  obtain ⟨-, hx1, hsx0, hu0⟩ := alone_of_x h hl
  have hx := add_le_total (f := fun g : Ghost => (g.x : ℤ)) (γ := γ) (by simp) hne
  have hsx := le_total (f := fun g : Ghost => (g.sx : ℤ)) (γ := γ) (by simp) l'
  refine ⟨?_, by omega, by omega⟩
  by_contra hs
  have := total_unit_pos h (Nat.pos_of_ne_zero hs)
  omega

theorem excluded_sx {s : Mem} {γ : Actor → Ghost} (h : Inv s γ) {l l' : Location} (hne : l ≠ l') :
    (γ (.app l)).sx = 0 ∨ (γ (.app l')).sx = 0 := by
  have hsx := add_le_total (f := fun g : Ghost => (g.sx : ℤ)) (γ := γ) (by simp) hne
  have := h.oneSx
  omega

/-! ### Steps that keep the account -/

/-- Neither `lock_word` nor a reference count nor a token changes. -/
abbrev SameAccount : Mem → Mem → Prop :=
  Kept (·.lockWord) fun k => (k.globalReadRefCount, k.localIsReserveLock)

instance : View (·.lockWord) fun k : LocalLock => (k.globalReadRefCount, k.localIsReserveLock) :=
  ⟨fun _ => rfl, fun _ => rfl⟩

theorem Inv.same {s s' : Mem} {γ : Actor → Ghost} (h : Inv s γ) (hs : SameAccount s s') :
    Inv s' γ where
  word := hs.shm ▸ h.word
  nonneg := hs.shm ▸ h.nonneg
  oneSx := h.oneSx
  node := fun n => (Prod.mk.inj (hs.ll n)).1 ▸ h.node n
  token := fun n => (Prod.mk.inj (hs.ll n)).2 ▸ h.token n

/-- Thread `l` changes its account. -/
theorem Inv.move {s s' : Mem} {γ : Actor → Ghost} {l : Location} {g g' : Ghost} (h : Inv s γ)
    (hg : γ (.app l) = g)
    (hw : s'.shm.lockWord = s.shm.lockWord - xLockDecr * (g'.x - g.x)
      - xLockHalfDecr * (g'.sx - g.sx) - (g'.unit - g.unit))
    (h0 : 0 ≤ s'.shm.lockWord) (h1 : total (·.sx) γ + (g'.sx - g.sx) ≤ 1)
    (hn : ∀ u p q k f, Covered (s.ll l.nodeId).globalReadRefCount u p q k f →
      Covered (s'.ll l.nodeId).globalReadRefCount (u + (g'.unit - g.unit)) (p + (g'.lead - g.lead))
        (q + (g'.last - g.last)) (k + (g'.s - g.s)) (f + (g'.fail - g.fail)))
    (hr : ∀ n, n ≠ l.nodeId → (s'.ll n).globalReadRefCount = (s.ll n).globalReadRefCount)
    (ht : ∀ n, (s'.ll n).localIsReserveLock = .i) :
    Inv s' (Function.update γ (.app l) g') := by
  subst hg
  refine ⟨?_, h0, ?_, fun n => ?_, ht⟩
  · simp only [total_update, hw, h.word, xLockDecr, xLockHalfDecr]
    ring
  · rw [total_update]
    exact h1
  · simp only [onNode_update]
    by_cases hl : l.nodeId = n
    · subst hl
      simpa using hn _ _ _ _ _ (h.node _)
    · simpa [hl, hr n (Ne.symm hl)] using h.node n

/-! ### The steps of the calls -/

section Steps

variable {t : Actor} {l : Location} {h : Holds} {g : Ghost} {α : Type}

theorem stable (hb : Bound h g) : outline.Stable t (fun _ => Bound h) SameAccount AnyLabel g :=
  ⟨fun _ _ _ _ hs hi => hi.same hs, trivial, fun _ _ => trivial, fun _ _ _ => trivial, hb⟩

theorem quiet_account {p : Call α} (hp : Quiet SameGlobal Label.Plain p) :
    Quiet SameAccount AnyLabel p :=
  hp.mono (fun _ _ hs => ⟨(congrArg UbRwLock.lockWord hs.shm :), fun n =>
    (congrArg (fun k => (k.globalReadRefCount, k.localIsReserveLock)) (hs.ll n) :),
    (congrArg Mem.registered hs :)⟩) fun _ _ => trivial

theorem quiet_setSharedOwnerBitmap (n : NodeId) :
    Quiet SameAccount AnyLabel (setSharedOwnerBitmap n) :=
  .ite trivial (.bind (.rmw trivial fun _ _ => ⟨rfl, fun _ => rfl, rfl⟩) fun _ => trivial)

theorem quiet_clearSharedOwnerBitmap (n : NodeId) :
    Quiet SameAccount AnyLabel (clearSharedOwnerBitmap n) :=
  .ite trivial (.bind (.rmw trivial fun _ _ => ⟨rfl, fun _ => rfl, rfl⟩) fun _ => trivial)

/-- Writing `UB_LOCK_I` over a token that is `UB_LOCK_I`. -/
theorem wp_clearToken (hb : Bound h g) (n : NodeId) :
    wp outline t (fun _ => Bound h) (store (Local.localIsReserveLock n) .i) (fun _ g' => g' = g) g := by
  refine wp_store trivial fun s γ hpre => ⟨trivial, g, hb, ?_, trivial, rfl⟩
  rw [hpre.update]
  exact hpre.inv.same (.onLocal (Prod.ext rfl (hpre.inv.token n).symm))

/-- No token is ever found. -/
theorem wp_takeToken (hb : Bound h g) (n : NodeId) :
    wp outline t (fun _ => Bound h) (exchange (Local.localIsReserveLock n) .i)
      (fun m g' => m = .i ∧ g' = g) g := by
  refine wp_rmw trivial fun s γ hpre => ⟨trivial, g, hb, ?_, trivial, hpre.inv.token n, rfl⟩
  rw [hpre.update]
  exact hpre.inv.same (.onLocal (Prod.ext rfl (hpre.inv.token n).symm))

theorem wp_delayReleaseLocalLock (hb : Bound h g) (mode : Mode) :
    wp outline (.app l) (fun _ => Bound h) (delayReleaseLocalLock mode l)
      (fun r g' => r = .success ∧ g' = g) g := by
  refine wp_bind (wp_mono (wp_takeToken hb l.nodeId) ?_)
  rintro m _ - ⟨rfl, rfl⟩
  exact ⟨trivial, rfl, rfl⟩

/-! #### Taking from and giving back to the word -/

/-- A step that only moves the word: what is left to show is arithmetic. -/
theorem Inv.moveWord {s : Mem} {γ : Actor → Ghost} {g' : Ghost} {v : ℤ} (hi : Inv s γ)
    (hg : γ (.app l) = g)
    (hw : v = s.shm.lockWord - xLockDecr * (g'.x - g.x) - xLockHalfDecr * (g'.sx - g.sx)
      - (g'.unit - g.unit))
    (h0 : 0 ≤ v) (h1 : total (·.sx) γ + (g'.sx - g.sx) ≤ 1)
    (hn : (g'.lead : ℤ) - g.lead + (g'.last - g.last) ≤ g'.unit - g.unit)
    (hs : g'.s = g.s) (hf : g'.fail = g.fail) :
    Inv (Shm.lockWord.set v s) (Function.update γ (.app l) g') := by
  refine hi.move hg hw h0 h1 (fun u p q k f hc => ?_) (fun _ _ => rfl) hi.token
  simp only [Covered, hs, hf, sub_self, add_zero] at hc ⊢
  change p + _ + (q + _) + (if 0 < (s.ll l.nodeId).globalReadRefCount then 1 else 0)
    + (if max (s.ll l.nodeId).globalReadRefCount 0 < k + f then 1 else 0) ≤ _
  omega

theorem wp_takeWordS (hb : Bound h g) :
    wp outline (.app l) (fun _ => Bound h) takeWordS
      (fun b g' => if b then g' = { g with unit := g.unit + 1, lead := g.lead + 1 } else g' = g)
      g := by
  refine quiet_loadAt.wp_bind (stable hb) fun cur => ?_
  split
  · rename_i hcur
    refine wp_bind (wp_casWeak trivial fun s γ hpre => ⟨trivial, fun heq => ?_, ?_⟩)
    · refine ⟨{ g with unit := g.unit + 1, lead := g.lead + 1 }, hb, ?_, trivial, trivial, rfl⟩
      have heq : s.shm.lockWord = cur := heq
      have h1 := hpre.inv.oneSx
      exact hpre.inv.moveWord hpre.own (by simp [heq]) (by omega) (by simpa using h1) (by simp)
        rfl rfl
    · exact ⟨g, hb, by rw [hpre.update]; exact hpre.inv, trivial, trivial, rfl⟩
  · exact ⟨trivial, rfl⟩

theorem wp_takeWordX (hb : Bound h g) :
    wp outline (.app l) (fun _ => Bound h) takeWordX
      (fun b g' => if b then g' = { g with x := g.x + 1 } else g' = g) g := by
  refine quiet_loadAt.wp_bind (stable hb) fun cur => ?_
  split
  · rename_i hcur
    refine wp_bind (wp_casWeak trivial fun s γ hpre => ⟨trivial, fun heq => ?_, ?_⟩)
    · refine ⟨{ g with x := g.x + 1 }, ⟨hb.1, hb.2.1, Nat.le_succ_of_le hb.2.2⟩, ?_, trivial,
        trivial, rfl⟩
      have heq : s.shm.lockWord = cur := heq
      have h1 := hpre.inv.oneSx
      exact hpre.inv.moveWord hpre.own (by simp [heq, hcur]) le_rfl (by simpa using h1) (by simp)
        rfl rfl
    · exact ⟨g, hb, by rw [hpre.update]; exact hpre.inv, trivial, trivial, rfl⟩
  · exact ⟨trivial, rfl⟩

theorem wp_takeWordSx (hb : Bound h g) :
    wp outline (.app l) (fun _ => Bound h) takeWordSx
      (fun b g' => if b then g' = { g with sx := g.sx + 1 } else g' = g) g := by
  refine quiet_loadAt.wp_bind (stable hb) fun cur => ?_
  split
  · rename_i hcur
    refine wp_bind (wp_casWeak trivial fun s γ hpre => ⟨trivial, fun heq => ?_, ?_⟩)
    · refine ⟨{ g with sx := g.sx + 1 }, ⟨hb.1, Nat.le_succ_of_le hb.2.1, hb.2.2⟩, ?_, trivial,
        trivial, rfl⟩
      have heq : s.shm.lockWord = cur := heq
      -- more than half of the word is left, so no SX is out
      have hw := hpre.inv.word
      have hu := total_unit_nonneg hpre.inv
      have hx := total_nonneg (f := fun g : Ghost => (g.x : ℤ)) (γ := γ) (by simp)
      simp only [xLockDecr, xLockHalfDecr] at hw hcur
      refine hpre.inv.moveWord hpre.own (by simp [heq]) ?_ ?_ (by simp) rfl rfl
      · simp only [xLockHalfDecr]
        omega
      · push_cast
        omega
    · exact ⟨g, hb, by rw [hpre.update]; exact hpre.inv, trivial, trivial, rfl⟩
  · exact ⟨trivial, rfl⟩

/-- The last S of a node gives its unit back; the word never overflows. -/
theorem wp_giveWordS (hb : Bound h g) (hl : 0 < g.last) :
    wp outline (.app l) (fun _ => Bound h) (fetchAt (.wordRelease l.nodeId) Shm.lockWord (· + 1))
      (fun old g' => old + 1 ≤ xLockDecr ∧
        g' = { g with unit := g.unit - 1, last := g.last - 1 }) g := by
  refine wp_rmw trivial fun s γ hpre => ⟨trivial, { g with unit := g.unit - 1, last := g.last - 1 },
    hb, ?_, trivial, ?_, rfl⟩
  · have h0 := hpre.inv.nonneg
    have h1 := hpre.inv.oneSx
    refine hpre.inv.moveWord hpre.own ?_ ?_ (by simpa using h1) ?_ rfl rfl
    · change s.shm.lockWord + 1 = _
      simp
    · change 0 ≤ s.shm.lockWord + 1
      omega
    · push_cast [Nat.cast_pred hl]
      omega
  · -- the unit owed is out, so the word is below its full value
    have hn := hpre.inv.node l.nodeId
    have hp : 0 ≤ onNode l.nodeId (fun g => (g.lead : ℤ)) γ := onNode_nonneg (by simp) _
    have hq := le_onNode (f := fun g : Ghost => (g.last : ℤ)) (γ := γ) (by simp) l
    have hle : onNode l.nodeId (·.unit) γ ≤ total (·.unit) γ := by
      rw [total_eq_sum_onNode]
      exact le_sum_of_nonneg (fun n => onNode_unit_nonneg hpre.inv n) _
    have hw := hpre.inv.word
    have hx := total_nonneg (f := fun g : Ghost => (g.x : ℤ)) (γ := γ) (by simp)
    have hsx := total_nonneg (f := fun g : Ghost => (g.sx : ℤ)) (γ := γ) (by simp)
    rw [hpre.own] at hq
    change s.shm.lockWord + 1 ≤ _
    simp only [xLockDecr, xLockHalfDecr, Covered] at hw hn ⊢
    split_ifs at hn <;> omega

theorem wp_giveWordX (hx : h.x < g.x) (hb : Bound h g) :
    wp outline (.app l) (fun _ => Bound h) (store Shm.lockWord xLockDecr)
      (fun _ g' => g' = { g with x := g.x - 1 }) g := by
  refine wp_store trivial fun s γ hpre => ⟨trivial, { g with x := g.x - 1 },
    ⟨hb.1, hb.2.1, Nat.le_sub_one_of_lt hx⟩, ?_, trivial, rfl⟩
  have hx' : 0 < (γ (.app l)).x := by
    rw [hpre.own]
    omega
  have h1 := hpre.inv.oneSx
  refine hpre.inv.moveWord hpre.own ?_ (by simp [xLockDecr]) (by simpa using h1) (by simp) rfl rfl
  simp only [(alone_of_x hpre.inv hx').1, Nat.cast_pred (show 0 < g.x by omega)]
  ring

theorem wp_giveWordSx (hsx : h.sx < g.sx) (hb : Bound h g) :
    wp outline (.app l) (fun _ => Bound h) (fetch Shm.lockWord (· + xLockHalfDecr))
      (fun _ g' => g' = { g with sx := g.sx - 1 }) g := by
  refine wp_rmw trivial fun s γ hpre => ⟨trivial, { g with sx := g.sx - 1 },
    ⟨hb.1, Nat.le_sub_one_of_lt hsx, hb.2.2⟩, ?_, trivial, rfl⟩
  have h0 := hpre.inv.nonneg
  have h1 := hpre.inv.oneSx
  refine hpre.inv.moveWord hpre.own ?_ ?_ ?_ (by simp) rfl rfl
  · change s.shm.lockWord + xLockHalfDecr = _
    simp only [Nat.cast_pred (show 0 < g.sx by omega)]
    ring
  · change 0 ≤ s.shm.lockWord + xLockHalfDecr
    simp only [xLockHalfDecr]
    omega
  · push_cast [Nat.cast_pred (show 0 < g.sx by omega)]
    omega

/-! #### The reference count of a node -/

/-- A step that only moves the reference count of the caller's node. -/
theorem Inv.moveRef {s : Mem} {γ : Actor → Ghost} {g' : Ghost} {v : ℤ} (hi : Inv s γ)
    (hg : γ (.app l) = g) (hx : g'.x = g.x) (hsx : g'.sx = g.sx) (hu : g'.unit = g.unit)
    (hn : ∀ u p q k f, Covered (s.ll l.nodeId).globalReadRefCount u p q k f →
      Covered v u (p + (g'.lead - g.lead)) (q + (g'.last - g.last)) (k + (g'.s - g.s))
        (f + (g'.fail - g.fail))) :
    Inv ((Local.globalReadRefCount l.nodeId).set v s) (Function.update γ (.app l) g') := by
  refine hi.move hg ?_ hi.nonneg ?_ (fun u p q k f hc => ?_) (fun n hne => ?_) (fun n => ?_)
  · simp [Local.globalReadRefCount, Local.field, hx, hsx, hu]
  · simpa [hsx] using hi.oneSx
  · simpa [Local.globalReadRefCount, Local.field, hu] using hn u p q k f hc
  · simp [Local.globalReadRefCount, Local.field, hne]
  · by_cases hne : n = l.nodeId
    · subst hne
      simpa [Local.globalReadRefCount, Local.field] using hi.token _
    · simpa [Local.globalReadRefCount, Local.field, hne] using hi.token n

/-- The leader turns its unit into the first reference. -/
theorem wp_publishS (hb : Bound h g) (hl : 0 < g.lead) :
    wp outline (.app l) (fun _ => Bound h) (publishS l.nodeId)
      (fun _ g' => g' = { g with lead := g.lead - 1, s := g.s + 1 }) g := by
  have hb' : Bound h { g with lead := g.lead - 1, s := g.s + 1 } :=
    ⟨Nat.le_succ_of_le hb.1, hb.2.1, hb.2.2⟩
  refine wp_bind (wp_store trivial fun s γ hpre => ⟨trivial, _, hb', ?_, trivial, ?_⟩)
  · refine hpre.inv.moveRef hpre.own rfl rfl rfl fun u p q k f hc => ?_
    simp only [Covered] at hc ⊢
    push_cast [Nat.cast_pred hl]
    split_ifs at hc ⊢ <;> omega
  · refine (quiet_localStore fun _ => rfl).wp_bind (stable hb') fun _ => ?_
    refine (quiet_localStore fun _ => rfl).wp_bind (stable hb') fun _ => ?_
    refine (quiet_core (quiet_notifyPending _)).wp_bind (stable hb') fun _ => ?_
    exact (quiet_setSharedOwnerBitmap _).wp (stable hb')

/-- The clean-up of a leader that gives up. -/
theorem wp_cleanupAndUnlockLocal (hb : Bound h g) :
    wp outline (.app l) (fun _ => Bound h) (cleanupAndUnlockLocal l) (fun _ g' => g' = g) g := by
  refine (quiet_localStore fun _ => rfl).wp_bind (stable hb) fun _ => ?_
  refine wp_bind (wp_store trivial fun s γ hpre => ⟨trivial, g, hb, ?_, trivial, ?_⟩)
  · refine hpre.inv.moveRef hpre.own rfl rfl rfl fun u p q k f hc => ?_
    simp only [Covered, sub_self, add_zero] at hc ⊢
    split_ifs at hc ⊢ <;> omega
  · refine (quiet_localStore fun _ => rfl).wp_bind (stable hb) fun _ => ?_
    refine (quiet_core (quiet_notifyPending _)).wp_bind (stable hb) fun _ => ?_
    exact (quiet_account (LocalLock.quiet_unlockS l)).wp_bind (stable hb) fun _ => ⟨trivial, rfl⟩

/-- A follower adds its reference to a positive count. -/
theorem wp_tryIncGlobalRef (hb : Bound h g) :
    wp outline (.app l) (fun _ => Bound h) (LocalLock.tryIncGlobalRef l.nodeId)
      (fun b g' => if b then g' = { g with s := g.s + 1 } else g' = g) g := by
  refine quiet_loadAt.wp_bind (stable hb) fun state => ?_
  split
  · exact ⟨trivial, rfl⟩
  refine quiet_loadAt.wp_bind (stable hb) fun ref => ?_
  refine wp_loop (fun _ g' => g = g') trivial rfl ?_
  rintro ref _ rfl
  split
  · exact ⟨trivial, rfl⟩
  split
  · exact ⟨trivial, rfl⟩
  rename_i hpos _
  refine quiet_loadAt.wp_bind (stable hb) fun state => ?_
  split
  · exact ⟨trivial, rfl⟩
  refine wp_bind (wp_casWeak trivial fun s γ hpre => ⟨trivial, fun heq => ?_, ?_⟩)
  · refine ⟨{ g with s := g.s + 1 }, ⟨Nat.le_succ_of_le hb.1, hb.2.1, hb.2.2⟩, ?_, trivial, trivial,
      rfl⟩
    have heq : (s.ll l.nodeId).globalReadRefCount = ref := heq
    refine hpre.inv.moveRef hpre.own rfl rfl rfl fun u p q k f hc => ?_
    simp only [Covered, heq] at hc ⊢
    push_cast
    split_ifs at hc ⊢ <;> omega
  · exact ⟨g, hb, by rw [hpre.update]; exact hpre.inv, trivial, trivial, rfl⟩

/-- An S holder takes its reference away: it may owe the unit, or a decrement. -/
def dropRef (old : ℤ) (g : Ghost) : Ghost :=
  { g with
    s := g.s - 1
    last := if old = 1 then g.last + 1 else g.last
    fail := if old ≤ 0 then g.fail + 1 else g.fail }

theorem dropRef_last (old : ℤ) (g : Ghost) :
    ((dropRef old g).last : ℤ) = g.last + if old = 1 then 1 else 0 := by
  unfold dropRef
  split_ifs <;> simp

theorem dropRef_fail (old : ℤ) (g : Ghost) :
    ((dropRef old g).fail : ℤ) = g.fail + if old ≤ 0 then 1 else 0 := by
  unfold dropRef
  split_ifs <;> simp

theorem bound_dropRef (hb : Bound h g) (hs : h.s < g.s) (old : ℤ) : Bound h (dropRef old g) :=
  ⟨Nat.le_sub_one_of_lt hs, hb.2⟩

theorem wp_dropRef (hb : Bound h g) (hs : h.s < g.s) :
    wp outline (.app l) (fun _ => Bound h) (fetch (Local.globalReadRefCount l.nodeId) (· - 1))
      (fun old g' => g' = dropRef old g) g := by
  refine wp_rmw trivial fun s γ hpre => ⟨trivial, _, bound_dropRef hb hs _, ?_, trivial, rfl⟩
  refine hpre.inv.moveRef hpre.own rfl rfl rfl fun u p q k f hc => ?_
  have hs' : ((dropRef (s.ll l.nodeId).globalReadRefCount g).s : ℤ) = g.s - 1 :=
    Nat.cast_pred (by omega)
  change Covered ((s.ll l.nodeId).globalReadRefCount - 1) u
    (p + ((dropRef (s.ll l.nodeId).globalReadRefCount g).lead - g.lead))
    (q + ((dropRef (s.ll l.nodeId).globalReadRefCount g).last - g.last))
    (k + ((dropRef (s.ll l.nodeId).globalReadRefCount g).s - g.s))
    (f + ((dropRef (s.ll l.nodeId).globalReadRefCount g).fail - g.fail))
  rw [hs', dropRef_last, dropRef_fail, show (dropRef _ g).lead = g.lead from rfl]
  simp only [Covered] at hc ⊢
  split_ifs at hc ⊢ <;> omega

/-- A rejected unlock puts its decrement back, in time. -/
theorem wp_compensate (hb : Bound h g) (hf : 0 < g.fail) :
    wp outline (.app l) (fun _ => Bound h)
      (fetchAt (.refCompensate l.nodeId) (Local.globalReadRefCount l.nodeId) (· + 1))
      (fun _ => Bound h) g := by
  refine wp_rmw trivial fun s γ hpre => ⟨trivial, { g with fail := g.fail - 1 }, hb, ?_, trivial, hb⟩
  obtain ⟨ℓ, -, hcond⟩ := hpre.run
  have hneg : (s.ll l.nodeId).globalReadRefCount < 0 := hcond _ rfl
  refine hpre.inv.moveRef hpre.own rfl rfl rfl fun u p q k f hc => ?_
  change Covered ((s.ll l.nodeId).globalReadRefCount + 1) _ _ _ _ _
  simp only [Covered] at hc ⊢
  push_cast [Nat.cast_pred hf]
  split_ifs at hc ⊢ <;> omega

/-! ### The calls -/

/-- A follower leaves with one more S, a leader or a thread that gave up with what it had. -/
theorem wp_waitOrClaimGlobalS (hb : Bound h g) :
    wp outline (.app l) (fun _ => Bound h) (waitOrClaimGlobalS l)
      (fun r g' => if r = (.success, false) then g' = { g with s := g.s + 1 } else g' = g) g := by
  refine wp_loop (fun _ g' => g = g') trivial rfl ?_
  rintro _ _ rfl
  refine wp_bind (wp_mono (wp_tryIncGlobalRef hb) fun follows g' _ hg => ?_)
  cases follows with
  | true => exact ⟨trivial, by simpa using hg⟩
  | false =>
    obtain rfl : g' = g := by simpa using hg
    refine quiet_loadAt.wp_bind (stable hb) fun state => ?_
    have hunlock : wp outline (.app l) (fun _ => Bound h) ((LocalLock.unlockS l).bind fun _ =>
        .ret (.inr (.timeout, false) : Unit ⊕ Result × Bool)) (fun r h' => Sum.elim (fun _ => g' = h')
          (fun b => if b = (.success, false) then h' = { g' with s := g'.s + 1 } else h' = g') r)
        g' :=
      (quiet_account (LocalLock.quiet_unlockS l)).wp_bind (stable hb) fun _ =>
        ⟨trivial, by simp⟩
    cases state with
    | idle =>
      have hcas : Quiet SameAccount AnyLabel (cas (Local.globalState l.nodeId) .idle .pending) :=
        quiet_localCas fun _ => rfl
      refine hcas.wp_bind (stable hb) fun (ok, _) => ⟨trivial, ?_⟩
      cases ok <;> simp
    | pending =>
      refine (quiet_core (quiet_waitFollowerS l)).wp_bind (stable hb) fun settled => ?_
      cases settled with
      | true => exact ⟨trivial, rfl⟩
      | false => exact hunlock
    | held =>
      refine (quiet_core quiet_expired).wp_bind (stable hb) fun late => ?_
      cases late with
      | true => exact hunlock
      | false => exact ⟨trivial, rfl⟩

theorem spinWaitS_meets (hb : Bound h g) :
    (spinWaitSLoop l).Meets outline (.app l) (fun _ => Bound h) g
      (fun g' => g' = { g with unit := g.unit + 1, lead := g.lead + 1 }) (fun g' => g' = g)
      (fun r => Bound (h.finish .lockS r)) where
  stable := stable_core (stable hb)
  attempt := wp_takeWordS hb
  acquired := fun b slot g' hg => by
    have hb' : Bound h g' := hg ▸ hb
    refine (quiet_core (quiet_ifThen (sharedQueue_silent.popHead slot))).wp_bind (stable hb')
      fun _ => wp_mono (wp_publishS hb' (by simp [hg])) ?_
    rintro _ _ - rfl
    subst hg
    exact ⟨Nat.succ_le_succ hb.1, hb.2⟩
  announce := (quiet_announce (fun _ _ => rfl) .s l).wp (stable hb)
  giveUp := wp_cleanupAndUnlockLocal hb
  gaveUp := by
    rintro _ rfl
    refine ⟨stable_core (stable hb), fun r hr => ?_⟩
    cases r <;> first | exact absurd rfl hr | exact hb

theorem wp_lockS (hb : Bound h g) :
    wp outline (.app l) (fun _ => Bound h) (lockS l) (fun r => Bound (h.finish .lockS r)) g := by
  unfold lockS
  split
  · exact ⟨trivial, hb⟩
  refine quiet_loadAt.wp_bind (stable hb) fun found => ?_
  split
  · exact ⟨trivial, hb⟩
  refine (quiet_account (LocalLock.quiet_lockS l)).wp_bind (stable hb) fun r => ?_
  split
  · rename_i hr
    refine ⟨trivial, ?_⟩
    cases r <;> first | exact absurd rfl hr | exact hb
  refine wp_bind (wp_mono (wp_waitOrClaimGlobalS hb) ?_)
  rintro ⟨r, leader⟩ g' - hg
  dsimp only
  split
  · rename_i hr
    refine ⟨trivial, ?_⟩
    cases r <;> cases leader <;> simp_all [Holds.finish, Bound]
  · rename_i hr
    obtain ⟨rfl, rfl⟩ : r = .success ∧ leader = true := by simpa using hr
    obtain rfl : g' = g := by simpa using hg
    refine wp_bind (wp_mono (wp_delayReleaseLocalLock hb .s) ?_)
    rintro _ _ - ⟨rfl, rfl⟩
    exact (spinWaitS_meets hb).wp_run (spinWaitSLoop_waits l)

/-- The last reference is gone: the unit goes back. -/
theorem wp_releaseS (hb : Bound h g) (hl : 0 < g.last) :
    wp outline (.app l) (fun _ => Bound h) (releaseS .base l) (fun _ => Bound h) g := by
  refine wp_bind ⟨trivial, wp_bind (wp_mono (wp_clearToken hb l.nodeId) ?_)⟩
  rintro _ _ - rfl
  refine wp_bind (wp_mono (wp_giveWordS hb hl) fun old g' _ hg => ?_)
  have hb' : Bound h g' := hg.2 ▸ hb
  have hclear := (quiet_clearSharedOwnerBitmap l.nodeId).wp_bind (k := fun _ => .ret Result.success)
    (Q := fun _ => Bound h) (stable (t := .app l) hb') fun _ => ⟨trivial, hb'⟩
  rw [if_neg (by omega)]
  split
  · exact (quiet_core (quiet_wakeIfWaiting l)).wp_bind (stable hb') fun _ => hclear
  · exact hclear

theorem wp_unlockS (hb : Bound h g) (hs : h.s < g.s) :
    wp outline (.app l) (fun _ => Bound h) (unlockS .base l) (fun _ => Bound h) g := by
  unfold unlockS
  split
  · exact ⟨trivial, hb⟩
  refine quiet_loadAt.wp_bind (stable hb) fun found => ?_
  split
  · exact ⟨trivial, hb⟩
  refine quiet_loadAt.wp_bind (stable hb) fun state => ?_
  dsimp only
  split
  · exact ⟨trivial, hb⟩
  refine wp_bind (wp_mono (wp_dropRef hb hs) ?_)
  rintro old _ - rfl
  have hd := bound_dropRef hb hs old
  split
  · exact wp_mono ((quiet_account (LocalLock.quiet_unlockS l)).wp (stable hd)) fun _ _ _ hg => hg ▸ hd
  split
  · rename_i hold
    refine wp_bind (wp_mono (wp_compensate hd ?_) fun _ g' _ hg => ⟨trivial, hg⟩)
    simp [dropRef, hold]
  · rename_i h1 h2
    refine wp_bind (wp_mono (wp_releaseS hd ?_) fun r g' _ hg => ?_)
    · simp [dropRef, show old = 1 by omega]
    split
    · exact ⟨trivial, hg⟩
    refine (quiet_localStore fun _ => rfl).wp_bind (stable hg) fun _ => ?_
    have hcas : Quiet SameAccount AnyLabel (cas (Local.globalState l.nodeId) .held .idle) :=
      quiet_localCas fun _ => rfl
    refine hcas.wp_bind (stable hg) fun _ => ?_
    refine (quiet_core (quiet_notifyPending _)).wp_bind (stable hg) fun _ => ?_
    refine (quiet_localStore fun _ => rfl).wp_bind (stable hg) fun _ => ?_
    exact wp_mono ((quiet_account (LocalLock.quiet_unlockS l)).wp (stable hg)) fun _ _ _ h' => h' ▸ hg

/-- Locking X or SX, where success takes the ghost to `y`. -/
theorem wp_lockExclusive {e : Grip} {y : Ghost} {h' : Result → Holds} (hb : Bound h g)
    (hy : Bound h y) (howner : ∀ s v, SameAccount s (e.owner.set v s))
    (hdepth : ∀ s v, SameAccount s (e.depth.set v s))
    (hattempt : wp outline (.app l) (fun _ => Bound h) e.attempt
      (fun b x => if b then x = y else x = g) g)
    (hlock : Quiet SameAccount AnyLabel (e.lockLocal false l))
    (hunlock : Quiet SameAccount AnyLabel (e.unlockLocal false l))
    (hyes : Bound (h' .success) y) (hno : ∀ r, r ≠ .success → h' r = h) :
    wp outline (.app l) (fun _ => Bound h) (lockExclusive e .base l) (fun r => Bound (h' r)) g := by
  have hfail : ∀ r, r ≠ .success → Bound (h' r) g := fun r hr => (hno r hr).symm ▸ hb
  have hspin : (spinWaitLoop e false l).Meets outline (.app l) (fun _ => Bound h) g
      (fun x => x = y) (fun x => x = g) fun r => Bound (h' r) := by
    refine ⟨stable_core (stable hb), hattempt, fun b slot _ hx => ?_,
      (quiet_announce (fun _ _ => rfl) _ l).wp (stable hb),
      hunlock.wp_bind (stable hb) fun _ => ⟨trivial, rfl⟩, fun _ hx => ?_⟩
    · have hstores : Quiet SameAccount AnyLabel ((spinWaitLoop e false l).acquired b slot) :=
        .bind (.write trivial (howner · _)) fun _ => .bind (.write trivial (hdepth · _)) fun _ =>
          .bind (quiet_localStore fun _ => rfl) fun _ =>
            quiet_core (quiet_ifThen (sharedQueue_silent.popHead slot))
      subst hx
      refine wp_mono (hstores.wp (stable hy)) ?_
      rintro _ _ - rfl
      exact hyes
    · subst hx
      exact ⟨stable_core (stable hb), hfail⟩
  unfold lockExclusive
  split
  · exact ⟨trivial, hfail _ (by decide)⟩
  refine quiet_loadAt.wp_bind (stable hb) fun found => ?_
  split
  · exact ⟨trivial, hfail _ (by decide)⟩
  refine hlock.wp_bind (stable hb) fun r => ?_
  split
  · rename_i hr
    exact ⟨trivial, hfail r hr⟩
  refine wp_bind (wp_mono (wp_delayReleaseLocalLock hb e.mode) ?_)
  rintro _ _ - ⟨rfl, rfl⟩
  refine quiet_loadAt.wp_bind (stable hb) fun owner => ?_
  split
  · exact hunlock.wp_bind (stable hb) fun _ => ⟨trivial, hfail _ (by decide)⟩
  · exact hspin.wp_run (spinWaitLoop_waits e _ l)

theorem wp_lockX (hb : Bound h g) :
    wp outline (.app l) (fun _ => Bound h) (lockX .base l)
      (fun r => Bound (h.finish (.lockX .base) r)) g :=
  wp_lockExclusive (e := gripX) (y := { g with x := g.x + 1 }) hb
    ⟨hb.1, hb.2.1, Nat.le_succ_of_le hb.2.2⟩ (fun _ _ => ⟨rfl, fun _ => rfl, rfl⟩)
    (fun _ _ => ⟨rfl, fun _ => rfl, rfl⟩) (wp_takeWordX hb)
    (quiet_account (LocalLock.quiet_lockX _ l)) (quiet_account (LocalLock.quiet_unlockX _ l))
    ⟨hb.1, hb.2.1, Nat.succ_le_succ hb.2.2⟩ fun r hr => by
      cases r <;> first | rfl | exact absurd rfl hr

theorem wp_unlockX (hb : Bound h g) (hx : h.x < g.x) :
    wp outline (.app l) (fun _ => Bound h) (unlockX .base l) (fun _ => Bound h) g := by
  have hb' : Bound h { g with x := g.x - 1 } := ⟨hb.1, hb.2.1, Nat.le_sub_one_of_lt hx⟩
  have hrelease : wp outline (.app l) (fun _ => Bound h) (releaseX .base l) (fun _ => Bound h) g := by
    refine quiet_loadAt.wp_bind (stable hb) fun owner => ?_
    split
    · exact ⟨trivial, hb⟩
    refine wp_bind ⟨trivial, wp_bind (wp_mono (wp_clearToken hb l.nodeId) ?_)⟩
    rintro _ _ - rfl
    refine (quiet_localStore fun _ => rfl).wp_bind (stable hb) fun _ => ?_
    refine (quiet_shmStore fun _ => rfl).wp_bind (stable hb) fun _ => ?_
    refine (quiet_shmStore fun _ => rfl).wp_bind (stable hb) fun _ => ?_
    refine wp_bind (wp_mono (wp_giveWordX hx hb) ?_)
    rintro _ _ - rfl
    exact (quiet_core (quiet_wakeIfWaiting l)).wp_bind (stable hb') fun _ => ⟨trivial, hb'⟩
  unfold unlockX
  split
  · exact ⟨trivial, hb⟩
  refine quiet_loadAt.wp_bind (stable hb) fun found => ?_
  split
  · exact ⟨trivial, hb⟩
  refine wp_bind ⟨trivial, wp_bind (wp_mono hrelease fun owned g' _ hg => ?_)⟩
  split
  · exact ⟨trivial, hg⟩
  refine (quiet_localStore fun _ => rfl).wp_bind (stable hg) fun _ => ?_
  exact wp_mono ((quiet_account (LocalLock.quiet_unlockX _ l)).wp (stable hg)) fun _ _ _ h' => h' ▸ hg

theorem wp_lockSx (hb : Bound h g) :
    wp outline (.app l) (fun _ => Bound h) (lockSx .base l)
      (fun r => Bound (h.finish (.lockSx .base) r)) g :=
  wp_lockExclusive (e := gripSx) (y := { g with sx := g.sx + 1 }) hb
    ⟨hb.1, Nat.le_succ_of_le hb.2.1, hb.2.2⟩ (fun _ _ => ⟨rfl, fun _ => rfl, rfl⟩)
    (fun _ _ => ⟨rfl, fun _ => rfl, rfl⟩) (wp_takeWordSx hb)
    (quiet_account (LocalLock.quiet_lockSx _ l)) (quiet_account (LocalLock.quiet_unlockSx _ l))
    ⟨hb.1, Nat.succ_le_succ hb.2.1, hb.2.2⟩ fun r hr => by
      cases r <;> first | rfl | exact absurd rfl hr

theorem wp_unlockSx (hb : Bound h g) (hsx : h.sx < g.sx) :
    wp outline (.app l) (fun _ => Bound h) (unlockSx .base l) (fun _ => Bound h) g := by
  have hb' : Bound h { g with sx := g.sx - 1 } := ⟨hb.1, Nat.le_sub_one_of_lt hsx, hb.2.2⟩
  have hrelease : wp outline (.app l) (fun _ => Bound h) (releaseSx .base l) (fun _ => Bound h) g := by
    refine quiet_loadAt.wp_bind (stable hb) fun owner => ?_
    split
    · exact ⟨trivial, hb⟩
    refine wp_bind ⟨trivial, wp_bind (wp_mono (wp_clearToken hb l.nodeId) ?_)⟩
    rintro _ _ - rfl
    refine (quiet_localStore fun _ => rfl).wp_bind (stable hb) fun _ => ?_
    refine (quiet_shmStore fun _ => rfl).wp_bind (stable hb) fun _ => ?_
    refine (quiet_shmStore fun _ => rfl).wp_bind (stable hb) fun _ => ?_
    refine wp_bind (wp_mono (wp_giveWordSx hsx hb) ?_)
    rintro old _ - rfl
    exact (quiet_core (quiet_wakeAfterSx _ l)).wp_bind (stable hb') fun _ => ⟨trivial, hb'⟩
  unfold unlockSx
  split
  · exact ⟨trivial, hb⟩
  refine quiet_loadAt.wp_bind (stable hb) fun found => ?_
  split
  · exact ⟨trivial, hb⟩
  refine wp_bind ⟨trivial, wp_bind (wp_mono hrelease fun owned g' _ hg => ?_)⟩
  rcases owned with _ | _ | _
  · exact ⟨trivial, hg⟩
  · exact ⟨trivial, hg⟩
  refine (quiet_localStore fun _ => rfl).wp_bind (stable hg) fun _ => ?_
  exact wp_mono ((quiet_account (LocalLock.quiet_unlockSx _ l)).wp (stable hg)) fun _ _ _ h' => h' ▸ hg

end Steps

/-! ### Every run -/

/-- The six calls without recursion and without delayed release. -/
def baseRule (_ : Holds) : Op → Bool
  | .lockS => true
  | .lockSx p | .lockX p | .unlockS p | .unlockSx p | .unlockX p => p = .base
  | .handle => false

theorem proved : spec.Proved (lockClient baseRule) where
  stay := fun _ _ _ _ hg => hg
  idle := fun _ _ _ hg => ⟨trivial, hg⟩
  start := fun t h op g _ hg =>
    ⟨(h.start_le op).1.trans hg.1, (h.start_le op).2.1.trans hg.2.1, (h.start_le op).2.2.trans hg.2.2⟩
  call := by
    rintro (l | ⟨n, k⟩) h op g ha hg
    · -- an application thread: what it unlocks it holds
      have hb : Bound (h.start op) g := ⟨(h.start_le op).1.trans hg.1,
        (h.start_le op).2.1.trans hg.2.1, (h.start_le op).2.2.trans hg.2.2⟩
      have hgood : ∀ {p : Call Result} {Q : Result → Ghost → Prop},
          wp outline (.app l) (fun _ => Bound (h.start op)) p Q g →
          wp outline (.app l) (fun _ => Bound (h.start op)) p (fun r g' => True ∧ Q r g') g :=
        fun hp => wp_mono hp fun _ _ _ hq => ⟨trivial, hq⟩
      cases op <;> simp [lockClient, baseRule, Holds.owns] at ha
      case lockS => exact hgood (wp_lockS hb)
      case lockSx p => obtain ⟨-, rfl⟩ := ha; exact hgood (wp_lockSx hb)
      case lockX p => obtain ⟨-, rfl⟩ := ha; exact hgood (wp_lockX hb)
      case unlockS p =>
        obtain ⟨⟨-, hs⟩, rfl⟩ := ha
        exact hgood (wp_unlockS hb (Nat.lt_of_lt_of_le (Nat.pred_lt hs.ne') hg.1))
      case unlockSx p =>
        obtain ⟨⟨-, hs⟩, rfl⟩ := ha
        exact hgood (wp_unlockSx hb (Nat.lt_of_lt_of_le (Nat.pred_lt hs.ne') hg.2.1))
      case unlockX p =>
        obtain ⟨⟨-, hs⟩, rfl⟩ := ha
        exact hgood (wp_unlockX hb (Nat.lt_of_lt_of_le (Nat.pred_lt hs.ne') hg.2.2))
    · obtain ⟨-, rfl⟩ : n.val < ubMaxNodes ∧ op = .handle := by simpa [lockClient] using ha
      refine wp_bind (wp_mono (wp_messageProcess (fun _ _ => rfl) (stable hg) (wp_takeToken hg n)) ?_)
      rintro _ _ - rfl
      exact ⟨trivial, trivial, hg⟩

/-- Nothing is out of a fresh lock. -/
theorem holds_init :
    spec.Holds (lockClient baseRule) LockConfig.init (fun _ => ⟨0, 0, 0, 0, 0, 0, 0⟩) where
  inv := by
    refine ⟨?_, by decide, ?_, fun n => ?_, fun n => rfl⟩
    · simp [total, sumOver, LockConfig.init, Mem.init, UbRwLock.init]
    · simp [total, sumOver]
    · simp [onNode, sumOver, Covered, LockConfig.init, Mem.init, LocalLock.init]
  moved := fun _ => ⟨⟨0, 0, 0, 0, 0, 0, 0⟩, le_rfl, le_rfl, le_rfl⟩
  idle := fun _ _ => ⟨le_rfl, le_rfl, le_rfl⟩
  busy := by simp [LockConfig.init]

/-- In every run in which each rejected `unlock_s` puts its decrement back while the count is still
    negative, X excludes every other holder and SX excludes SX. -/
theorem exclusion_of_compensates {c : LockConfig}
    (hc : Config.Reach (lockClient baseRule) Compensates LockConfig.init c) {l l' : Location}
    (hne : l ≠ l') :
    (0 < (c.held (.app l)).x → c.held (.app l') = Holds.none) ∧
      ¬ (0 < (c.held (.app l)).sx ∧ 0 < (c.held (.app l')).sx) := by
  obtain ⟨γ, hγ⟩ := proved.sound holds_init hc
  obtain ⟨_, hs, hsx, hx⟩ := hγ.moved (.app l')
  obtain ⟨_, hb⟩ := hγ.moved (.app l)
  refine ⟨fun hl => ?_, fun ⟨h1, h2⟩ => ?_⟩
  · obtain ⟨e1, e2, e3⟩ := excluded hγ.inv hne (hl.trans_le hb.2.2)
    have : c.held (.app l') = ⟨0, 0, 0⟩ := by
      cases hh : c.held (.app l')
      simp_all
    exact this
  · have := hb.2.1
    rcases excluded_sx hγ.inv hne with e | e <;> omega

/-- `Compensates`, as a check on a configuration. -/
def compensates (c : LockConfig) (t : Actor) : Bool :=
  match c.labels t with
  | some (.refCompensate n) => (c.mem.ll n).globalReadRefCount < 0
  | _ => true

theorem meets_of_compensates (c : LockConfig) (t : Actor) (h : compensates c t = true) :
    c.Meets Compensates t := by
  rintro e he n rfl
  simpa [compensates, he] using h

/-- X is granted to node 1 after node 0 has drained: the exclusion is not empty. -/
theorem exclusion_of_compensates_handover :
    ∃ c, Config.Reach (lockClient baseRule) Compensates LockConfig.init c ∧
      0 < (c.held (.app ⟨1, 1⟩)).x ∧ c.held (.app ⟨1, 0⟩) = Holds.none := by
  have hrun : ∃ c, Config.Reach (lockClient baseRule) Compensates LockConfig.init c ∧
      0 < (c.held (.app ⟨1, 1⟩)).x :=
    Config.reach_of_runAll meets_of_compensates
      [.call (.app ⟨1, 0⟩) .lockS, .finish (.app ⟨1, 0⟩),
        .call (.app ⟨1, 0⟩) (.unlockS .base), .finish (.app ⟨1, 0⟩),
        .call (.app ⟨1, 1⟩) (.lockX .base), .finish (.app ⟨1, 1⟩)] (by decide +kernel)
  obtain ⟨c, hc, hx⟩ := hrun
  exact ⟨c, hc, hx, (exclusion_of_compensates hc (by decide)).1 hx⟩

/-- Threads 1 to 5 of node 0, thread 1 of node 1. An `unlock_sx` resets `global_state_` under three S
    holders, so the next S leads again and its reference count of 1 hides theirs. The rejected
    `unlock_s` of thread 1 then puts its decrement back after a further leader has come and gone,
    and thread 2 releases that phantom reference together with the node's last unit. -/
def phantomReference : List (Config.Piece Actor Label Op) :=
  let t (n : Tid) : Actor := .app ⟨n, 0⟩
  let e : Actor := .app ⟨1, 1⟩
  [.call (t 1) .lockS, .finish (t 1), .call (t 2) .lockS, .finish (t 2),
   .call (t 3) .lockS, .finish (t 3),
   .call (t 4) (.lockSx .base), .finish (t 4), .call (t 4) (.unlockSx .base), .finish (t 4),
   .call (t 5) .lockS, .finish (t 5), .call (t 5) (.unlockS .base), .finish (t 5),
   .call (t 1) (.unlockS .base), .upTo (t 1) (.refCompensate 0),
   .call (t 5) .lockS, .finish (t 5), .call (t 5) (.unlockS .base), .finish (t 5),
   .finish (t 1), .call (t 2) (.unlockS .base), .finish (t 2),
   .call e (.lockX .base), .finish e]

/-- X is granted on node 1 while thread 3 of node 0 still holds S. -/
theorem exclusion_violated :
    ∃ c, Config.Reachable (lockClient baseRule) LockConfig.init c ∧
      0 < (c.held (.app ⟨1, 1⟩)).x ∧ 0 < (c.held (.app ⟨3, 0⟩)).s :=
  Config.reachable_of_runAll phantomReference (by decide +kernel)

end Exclusion

end UbsAtomic
