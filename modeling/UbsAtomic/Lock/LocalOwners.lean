import UbsAtomic.Lock.Alone

/-! Who holds a `LocalLock` exclusively, after whole calls made one at a time.

    Three fields say it: a flag of the word, an owner and a depth. The owner `0` means nobody, and a
    call whose thread is the recorded owner does not look at the word.

        free ──lock_x──▶ X of t, depth 1 ──lock_x(recursive)──▶ X of t, depth 2 ──▶ …
          ▲                   │                                       │
          └────unlock_x───────┴──────────unlock_x(not recursive)──────┘

    So a thread with id `0` finds itself owner of a free lock, and an unlock without the recursive
    flag gives up all acquisitions at once. Without the two, and below 2^32 acquisitions, the fields
    always tell the truth. -/

namespace UbsAtomic

open Conc Conc.Prog

namespace LocalOwners

/-! ### The calls -/

inductive Op where
  | lockX (recursive : Bool)
  | lockSx (recursive : Bool)
  | unlockX (recursive : Bool)
  | unlockSx (recursive : Bool)
  deriving DecidableEq

/-- A thread's acquisitions less its releases. -/
structure Net where
  x : ℤ
  sx : ℤ
  deriving DecidableEq

def Net.zero : Net := ⟨0, 0⟩

def Net.after (h : Net) : Op → Net
  | .lockX _ => { h with x := h.x + 1 }
  | .lockSx _ => { h with sx := h.sx + 1 }
  | .unlockX _ => { h with x := h.x - 1 }
  | .unlockSx _ => { h with sx := h.sx - 1 }

/-- Threads with distinct ids that call the local lock of node `n` as they like. -/
def client (n : NodeId) : Client Tid Mem Label Op Result Net where
  code
    | t, .lockX r => LocalLock.lockX r ⟨t, n⟩
    | t, .lockSx r => LocalLock.lockSx r ⟨t, n⟩
    | t, .unlockX r => LocalLock.unlockX r ⟨t, n⟩
    | t, .unlockSx r => LocalLock.unlockSx r ⟨t, n⟩
  allowed _ _ _ := true
  start h _ := h
  finish h op r := if r = .success then h.after op else h

abbrev LocalBoundary := Boundary Tid Mem Net

/-- After a successful acquisition: the word has the flag, owner and depth are the caller's, and
    nobody is recorded for the other mode. -/
def Acquired (k : LocalLock) (t : Tid) (h : Net) : Op → Prop
  | .lockX _ => StateWord.xFlag k.lockWord = true ∧ k.lockXOwner = t ∧ (k.xRecursive : ℤ) = h.x ∧
      StateWord.sxFlag k.lockWord = false ∧ k.lockSxOwner = 0
  | .lockSx _ => StateWord.sxFlag k.lockWord = true ∧ k.lockSxOwner = t ∧ (k.sxRecursive : ℤ) = h.sx ∧
      StateWord.xFlag k.lockWord = false ∧ k.lockXOwner = 0
  | _ => True

/-- The caller is not thread `0`, does not count to 2^32, and unlocks without the recursive flag only
    what it has acquired once. -/
def Proper (x : LocalBoundary) (t : Tid) : Op → Prop
  | .lockX _ => t ≠ 0 ∧ (x.held t).x + 1 < 4294967296
  | .lockSx _ => t ≠ 0 ∧ (x.held t).sx + 1 < 4294967296
  | .unlockX r => t ≠ 0 ∧ (r = false → (x.held t).x ≤ 1)
  | .unlockSx r => t ≠ 0 ∧ (r = false → (x.held t).sx ≤ 1)

instance (x : LocalBoundary) (t : Tid) : ∀ op, Decidable (Proper x t op)
  | .lockX _ => inferInstanceAs (Decidable (_ ∧ _))
  | .lockSx _ => inferInstanceAs (Decidable (_ ∧ _))
  | .unlockX _ => inferInstanceAs (Decidable (_ ∧ (_ → _)))
  | .unlockSx _ => inferInstanceAs (Decidable (_ ∧ (_ → _)))

/-! ### What the fields say -/

/-- The word of an SX holder: one flag and nothing else. -/
def sxState : StateWord := Function.update StateWord.zero 0 ⟨0, false, true⟩

/-- The three fields and the threads' acquisitions agree: nobody holds the lock, or one thread holds
    one mode, `d` times. -/
inductive Tenure (k : LocalLock) (γ : Tid → Net) : Prop
  | free (word : k.lockWord = .zero) (ownerX : k.lockXOwner = 0) (ownerSx : k.lockSxOwner = 0)
      (none : ∀ t, γ t = .zero)
  | x (t : Tid) (d : ℕ) (ne : t ≠ 0) (pos : 0 < d) (lt : d < 4294967296) (word : k.lockWord = .xState)
      (ownerX : k.lockXOwner = t) (ownerSx : k.lockSxOwner = 0) (depth : k.xRecursive = d)
      (own : γ t = ⟨d, 0⟩) (others : ∀ t', t' ≠ t → γ t' = .zero)
  | sx (t : Tid) (d : ℕ) (ne : t ≠ 0) (pos : 0 < d) (lt : d < 4294967296) (word : k.lockWord = sxState)
      (ownerX : k.lockXOwner = 0) (ownerSx : k.lockSxOwner = t) (depth : k.sxRecursive = d)
      (own : γ t = ⟨0, d⟩) (others : ∀ t', t' ≠ t → γ t' = .zero)

section Steps

variable {n : NodeId} {m : Mem} {a : UbRwLock} {k k' : LocalLock} {γ : Tid → Net} {t : Tid} {r : Bool}

theorem xState_ne_zero : StateWord.xState ≠ StateWord.zero := by decide

theorem sxState_ne_zero : sxState ≠ StateWord.zero := by decide

/-- The acquisitions of the others are not touched. -/
theorem others_update {h : Net} (h0 : ∀ t', t' ≠ t → γ t' = .zero) :
    ∀ t', t' ≠ t → Function.update γ t h t' = .zero := by
  intro t' hne
  rw [Function.update_of_ne hne]
  exact h0 t' hne

theorem Tenure.lockX (h : Tenure k γ) (ht : t ≠ 0) (hlt : (γ t).x + 1 < 4294967296)
    (he : Alone.EnteredX r t k k') :
    Tenure k' (Function.update γ t ((γ t).after (.lockX r))) ∧ k'.lockXOwner = t := by
  cases h with
  | free word ownerX ownerSx none =>
    rcases he with ⟨hown, -, -⟩ | ⟨-, -, rfl⟩
    · exact absurd (hown.symm.trans ownerX) ht
    · refine ⟨.x t 1 ht (by decide) (by decide) rfl rfl ownerSx rfl ?_
        (others_update fun t' _ => none t'), rfl⟩
      rw [Function.update_self, none]
      rfl
  | x t₀ d ne pos lt word ownerX ownerSx depth own others =>
    rcases he with ⟨hown, -, rfl⟩ | ⟨-, hzero, -⟩
    · obtain rfl : t₀ = t := ownerX.symm.trans hown
      rw [own] at hlt ⊢
      have hd : d + 1 < 4294967296 := by
        have hlt : (d : ℤ) + 1 < 4294967296 := hlt
        omega
      refine ⟨.x t₀ (d + 1) ne (Nat.succ_pos d) hd word ownerX ownerSx ?_ ?_ (others_update others),
        ownerX⟩
      · show u32 (k.xRecursive + 1) = d + 1
        rw [depth]
        exact Nat.mod_eq_of_lt hd
      · rw [Function.update_self]
        simp [Net.after]
    · exact absurd (word.symm.trans hzero) xState_ne_zero
  | sx t₀ d ne pos lt word ownerX ownerSx depth own others =>
    rcases he with ⟨hown, -, -⟩ | ⟨-, hzero, -⟩
    · exact absurd (hown.symm.trans ownerX) ht
    · exact absurd (word.symm.trans hzero) sxState_ne_zero

theorem Tenure.lockSx (h : Tenure k γ) (ht : t ≠ 0) (hlt : (γ t).sx + 1 < 4294967296)
    (he : Alone.EnteredSx r t k k') :
    Tenure k' (Function.update γ t ((γ t).after (.lockSx r))) ∧ k'.lockSxOwner = t := by
  cases h with
  | free word ownerX ownerSx none =>
    rcases he with ⟨hown, -, -⟩ | ⟨-, -, -, rfl⟩
    · exact absurd (hown.symm.trans ownerSx) ht
    · have hword : Function.update k.lockWord 0 { k.lockWord 0 with flag := true } = sxState := by
        rw [word]
        rfl
      refine ⟨.sx t 1 ht (by decide) (by decide) hword ownerX rfl rfl ?_
        (others_update fun t' _ => none t'), rfl⟩
      rw [Function.update_self, none]
      rfl
  | x t₀ d ne pos lt word ownerX ownerSx depth own others =>
    rcases he with ⟨hown, -, -⟩ | ⟨-, hflag, -⟩
    · exact absurd (hown.symm.trans ownerSx) ht
    · rw [word] at hflag
      cases hflag
  | sx t₀ d ne pos lt word ownerX ownerSx depth own others =>
    rcases he with ⟨hown, -, rfl⟩ | ⟨-, -, hflag, -⟩
    · obtain rfl : t₀ = t := ownerSx.symm.trans hown
      rw [own] at hlt ⊢
      have hd : d + 1 < 4294967296 := by
        have hlt : (d : ℤ) + 1 < 4294967296 := hlt
        omega
      refine ⟨.sx t₀ (d + 1) ne (Nat.succ_pos d) hd word ownerX ownerSx ?_ ?_ (others_update others),
        ownerSx⟩
      · show u32 (k.sxRecursive + 1) = d + 1
        rw [depth]
        exact Nat.mod_eq_of_lt hd
      · rw [Function.update_self]
        simp [Net.after]
    · rw [word] at hflag
      cases hflag

/-- Where a thread is the recorded X owner, the other fields say so too. -/
theorem Tenure.ofOwnerX (h : Tenure k γ) (ht : t ≠ 0) (hown : k.lockXOwner = t) :
    StateWord.xFlag k.lockWord = true ∧ k.lockXOwner = t ∧ (k.xRecursive : ℤ) = (γ t).x ∧
      StateWord.sxFlag k.lockWord = false ∧ k.lockSxOwner = 0 := by
  cases h with
  | free word ownerX ownerSx none => exact absurd (hown.symm.trans ownerX) ht
  | sx t₀ d ne pos lt word ownerX ownerSx depth own others =>
    exact absurd (hown.symm.trans ownerX) ht
  | x t₀ d ne pos lt word ownerX ownerSx depth own others =>
    obtain rfl : t₀ = t := ownerX.symm.trans hown
    rw [word, own, depth]
    exact ⟨rfl, ownerX, rfl, rfl, ownerSx⟩

theorem Tenure.ofOwnerSx (h : Tenure k γ) (ht : t ≠ 0) (hown : k.lockSxOwner = t) :
    StateWord.sxFlag k.lockWord = true ∧ k.lockSxOwner = t ∧ (k.sxRecursive : ℤ) = (γ t).sx ∧
      StateWord.xFlag k.lockWord = false ∧ k.lockXOwner = 0 := by
  cases h with
  | free word ownerX ownerSx none => exact absurd (hown.symm.trans ownerSx) ht
  | x t₀ d ne pos lt word ownerX ownerSx depth own others =>
    exact absurd (hown.symm.trans ownerSx) ht
  | sx t₀ d ne pos lt word ownerX ownerSx depth own others =>
    obtain rfl : t₀ = t := ownerSx.symm.trans hown
    rw [word, own, depth]
    exact ⟨rfl, ownerSx, rfl, rfl, ownerX⟩

/-- Popping one of at least two acquisitions. -/
theorem u32_pred {d : ℕ} (hd : 1 < d) (hlt : d < 4294967296) : u32 (d + 4294967295) = d - 1 := by
  rw [u32]
  omega

/-- The release that is not one of several is the last. -/
theorem eq_one_of_last {d : ℕ} (pos : 0 < d) (hr : r = false → (d : ℤ) ≤ 1)
    (hd : ¬ (r = true ∧ 1 < d)) : d = 1 := by
  cases r with
  | false =>
    have hle := hr rfl
    omega
  | true =>
    have hle : ¬ 1 < d := fun hlt => hd ⟨rfl, hlt⟩
    omega

theorem none_update (h0 : ∀ t', t' ≠ t → γ t' = .zero) :
    ∀ t', Function.update γ t .zero t' = .zero := by
  intro t'
  by_cases he : t' = t
  · rw [he, Function.update_self]
  · exact others_update h0 t' he

theorem Tenure.unlockX (h : Tenure k γ) (ht : t ≠ 0) (hown : k.lockXOwner = t)
    (hr : r = false → (γ t).x ≤ 1) :
    Tenure (Alone.leaveX r k) (Function.update γ t ((γ t).after (.unlockX r))) := by
  cases h with
  | free word ownerX ownerSx none => exact absurd (hown.symm.trans ownerX) ht
  | sx t₀ d ne pos lt word ownerX ownerSx depth own others =>
    exact absurd (hown.symm.trans ownerX) ht
  | x t₀ d ne pos lt word ownerX ownerSx depth own others =>
    obtain rfl : t₀ = t := ownerX.symm.trans hown
    rw [own] at hr ⊢
    rw [Alone.leaveX, depth]
    split
    · rename_i hd
      refine .x t₀ (d - 1) ne (by omega) (by omega) word ownerX ownerSx (u32_pred hd.2 lt) ?_
        (others_update others)
      rw [Function.update_self]
      simp only [Net.after, Net.mk.injEq, and_true]
      omega
    · rename_i hd
      obtain rfl := eq_one_of_last pos hr hd
      exact .free rfl rfl ownerSx (none_update others)

theorem Tenure.unlockSx (h : Tenure k γ) (ht : t ≠ 0) (hown : k.lockSxOwner = t)
    (hr : r = false → (γ t).sx ≤ 1) :
    Tenure (Alone.leaveSx r k) (Function.update γ t ((γ t).after (.unlockSx r))) := by
  cases h with
  | free word ownerX ownerSx none => exact absurd (hown.symm.trans ownerSx) ht
  | x t₀ d ne pos lt word ownerX ownerSx depth own others =>
    exact absurd (hown.symm.trans ownerSx) ht
  | sx t₀ d ne pos lt word ownerX ownerSx depth own others =>
    obtain rfl : t₀ = t := ownerSx.symm.trans hown
    rw [own] at hr ⊢
    rw [Alone.leaveSx, depth]
    split
    · rename_i hd
      refine .sx t₀ (d - 1) ne (by omega) (by omega) word ownerX ownerSx (u32_pred hd.2 lt) ?_
        (others_update others)
      rw [Function.update_self]
      simp only [Net.after, Net.mk.injEq, true_and]
      omega
    · rename_i hd
      obtain rfl := eq_one_of_last pos hr hd
      refine .free ?_ ownerX rfl (none_update others)
      show Function.update k.lockWord 0 { k.lockWord 0 with flag := false } = StateWord.zero
      rw [word]
      decide

end Steps

/-! ### Whole calls -/

section Calls

variable {n : NodeId} {k k' : LocalLock} {γ : Tid → Net} {x y : LocalBoundary} {t : Tid} {op : Op}
  {res : Result}

/-- What a call by thread `t` makes of the local lock `k`. -/
def Leads (t : Tid) (k : LocalLock) : Op → Result → LocalLock → Prop
  | .lockX r, res, k' =>
    (res = .success → Alone.EnteredX r t k k') ∧ (res ≠ .success → k' = k)
  | .lockSx r, res, k' =>
    (res = .success → Alone.EnteredSx r t k k') ∧ (res ≠ .success → k' = k)
  | .unlockX r, res, k' =>
    k.lockXOwner = t ∧ res = .success ∧ k' = Alone.leaveX r k ∨
      k.lockXOwner ≠ t ∧ res = .error ∧ k' = k
  | .unlockSx r, res, k' =>
    (k.lockSxOwner = t ∧ (k.lockWord 0).flag = true) ∧ res = .success ∧ k' = Alone.leaveSx r k ∨
      ¬ (k.lockSxOwner = t ∧ (k.lockWord 0).flag = true) ∧ res = .error ∧ k' = k

/-- A lock call that is a step of the local lock if it succeeds, and nothing if it does not. -/
theorem ends_lock {p : Call Result} {m : Mem} {a : UbRwLock} {E : LocalLock → Prop}
    (h : Alone.Ends p (fun res m' => (res = .success → ∃ k', E k' ∧ m' = m.put n a k') ∧
      (res ≠ .success → m' = m.put n a k)) (m.put n a k)) :
    Alone.Ends p (fun res m' => ∃ k', ((res = .success → E k') ∧ (res ≠ .success → k' = k)) ∧
      m' = m.put n a k') (m.put n a k) := by
  refine wp_mono h ?_
  rintro res m' - ⟨hs, hf⟩
  by_cases hres : res = .success
  · obtain ⟨k', he, rfl⟩ := hs hres
    exact ⟨k', ⟨fun _ => he, fun hne => absurd hres hne⟩, rfl⟩
  · exact ⟨k, ⟨fun h => absurd h hres, fun _ => rfl⟩, hf hres⟩

theorem ends_unlockX {m : Mem} {a : UbRwLock} {r : Bool} :
    Alone.Ends (LocalLock.unlockX r ⟨t, n⟩) (fun res m' => ∃ k', Leads t k (.unlockX r) res k' ∧
      m' = m.put n a k') (m.put n a k) := by
  by_cases ho : k.lockXOwner = t
  · refine wp_mono (Alone.ends_localUnlockX (l := ⟨t, n⟩) ho) ?_
    rintro res m' - ⟨hres, rfl⟩
    exact ⟨_, .inl ⟨ho, hres, rfl⟩, rfl⟩
  · refine wp_bind (Alone.loadLocal ?_)
    rw [if_pos ho]
    exact ⟨trivial, k, .inr ⟨ho, rfl, rfl⟩, rfl⟩

theorem ends_unlockSx {m : Mem} {a : UbRwLock} {r : Bool} :
    Alone.Ends (LocalLock.unlockSx r ⟨t, n⟩) (fun res m' => ∃ k', Leads t k (.unlockSx r) res k' ∧
      m' = m.put n a k') (m.put n a k) := by
  by_cases ho : k.lockSxOwner = t
  · by_cases hf : (k.lockWord 0).flag = true
    · refine wp_mono (Alone.ends_localUnlockSx (l := ⟨t, n⟩) ho hf) ?_
      rintro res m' - ⟨hres, rfl⟩
      exact ⟨_, .inl ⟨⟨ho, hf⟩, hres, rfl⟩, rfl⟩
    · refine wp_bind (Alone.loadLocal ?_)
      rw [if_neg (not_not.mpr ho)]
      refine wp_bind (Alone.loadLocal ?_)
      rw [if_pos (by simpa [StateWord.sxFlag] using hf)]
      exact ⟨trivial, k, .inr ⟨fun h => hf h.2, rfl, rfl⟩, rfl⟩
  · refine wp_bind (Alone.loadLocal ?_)
    rw [if_pos ho]
    exact ⟨trivial, k, .inr ⟨fun h => ho h.1, rfl, rfl⟩, rfl⟩

theorem ends_call (op : Op) (m : Mem) (a : UbRwLock) :
    Alone.Ends ((client n).code t op) (fun res m' => ∃ k', Leads t k op res k' ∧
      m' = m.put n a k') (m.put n a k) := by
  cases op with
  | lockX r => exact ends_lock (Alone.ends_localLockX (l := ⟨t, n⟩) r)
  | lockSx r => exact ends_lock (Alone.ends_localLockSx (l := ⟨t, n⟩) r)
  | unlockX r => exact ends_unlockX
  | unlockSx r => exact ends_unlockSx

theorem leads_of_run {s s' : Mem} (hrun : Run ((client n).code t op) s res s') :
    Leads t (s.ll n).face op res (s'.ll n).face := by
  have hend := ends_call (n := n) (k := s.face.ll n) (t := t) op s.face s.face.shm
  rw [Mem.put_self] at hend
  obtain ⟨k', hleads, hs'⟩ := hrun.sound hend
  have hk : s'.face.ll n = k' := by
    rw [hs']
    exact Function.update_self ..
  rw [← hk] at hleads
  exact hleads

/-- Recording a call that failed changes nothing. -/
theorem Tenure.unchanged (h : Tenure k γ) (hres : res ≠ .success) :
    Tenure k (Function.update γ t ((client n).finish (γ t) op res)) := by
  show Tenure k (Function.update γ t (if res = .success then _ else γ t))
  rw [if_neg hres, Function.update_eq_self]
  exact h

/-- A proper call keeps the fields truthful, and a successful acquisition shows in them. -/
theorem Tenure.call (h : Tenure k x.held) (hp : Proper x t op) (hl : Leads t k op res k') :
    Tenure k' (Function.update x.held t ((client n).finish (x.held t) op res)) ∧
      (res = .success → Acquired k' t ((x.held t).after op) op) := by
  cases op with
  | lockX r =>
    by_cases hres : res = .success
    · subst hres
      obtain ⟨hk', hown⟩ := h.lockX hp.1 hp.2 (hl.1 rfl)
      have hshows := hk'.ofOwnerX hp.1 hown
      rw [Function.update_self] at hshows
      exact ⟨hk', fun _ => hshows⟩
    · obtain rfl := hl.2 hres
      exact ⟨h.unchanged hres, fun h => absurd h hres⟩
  | lockSx r =>
    by_cases hres : res = .success
    · subst hres
      obtain ⟨hk', hown⟩ := h.lockSx hp.1 hp.2 (hl.1 rfl)
      have hshows := hk'.ofOwnerSx hp.1 hown
      rw [Function.update_self] at hshows
      exact ⟨hk', fun _ => hshows⟩
    · obtain rfl := hl.2 hres
      exact ⟨h.unchanged hres, fun h => absurd h hres⟩
  | unlockX r =>
    rcases hl with ⟨hown, rfl, rfl⟩ | ⟨-, rfl, rfl⟩
    · exact ⟨h.unlockX hp.1 hown hp.2, fun _ => trivial⟩
    · exact ⟨h.unchanged (by decide), fun _ => trivial⟩
  | unlockSx r =>
    rcases hl with ⟨⟨hown, -⟩, rfl, rfl⟩ | ⟨-, rfl, rfl⟩
    · exact ⟨h.unlockSx hp.1 hown hp.2, fun _ => trivial⟩
    · exact ⟨h.unchanged (by decide), fun _ => trivial⟩

end Calls

/-! ### Histories -/

theorem held_after (n : NodeId) (x : LocalBoundary) (t : Tid) (op : Op) (s : Mem) :
    (x.after (client n) t op .success s).held t = (x.held t).after op :=
  Function.update_self ..

/-- A lock that nobody has acquired. -/
def fresh (s : Mem) : LocalBoundary := ⟨s, fun _ => .zero⟩

/-- In every history of proper calls, whoever acquires the lock is its recorded holder. -/
theorem acquired_of_proper (n : NodeId) (s : Mem) (hs : s.ll n = .init) {x y : LocalBoundary}
    {t : Tid} {op : Op}
    (h : Boundary.History (client n) (fun x t op _ => Proper x t op) (fresh s) x)
    (hp : Proper x t op) (hc : x.Calls (client n) t op .success y) :
    Acquired (y.mem.ll n) t (y.held t) op := by
  have htenure : Tenure (x.mem.ll n).face x.held := by
    refine h.invariant (J := fun x => Tenure (x.mem.ll n).face x.held) ?_ ?_
    · rw [fresh, hs]
      exact .free rfl rfl rfl fun _ => rfl
    · rintro x t op res _ hx hp ⟨-, s, hrun, rfl⟩
      exact (hx.call hp (leads_of_run hrun)).1
  obtain ⟨-, s', hrun, rfl⟩ := hc
  have hacq := (htenure.call (n := n) hp (leads_of_run hrun)).2 rfl
  rw [held_after]
  cases op with
  | lockX r => exact hacq
  | lockSx r => exact hacq
  | unlockX r => trivial
  | unlockSx r => trivial

/-- Thread 7 locks X twice. -/
theorem acquired_of_proper_twice : ∃ y : LocalBoundary,
    Acquired (y.mem.ll 0) 7 (y.held 7) (.lockX true) ∧ (y.held 7).x = 2 := by
  obtain ⟨x, hx, hp⟩ := Boundary.history_of_play (client 0) (fun x t op _ => Proper x t op)
    (fresh .init) [(7, .lockX true)]
    (fun x => x.held 7 = ⟨1, 0⟩ ∧
      (((client 0).code 7 (.lockX true)).exec 1000 x.mem).any (·.1 = .success) = true)
    (by decide +kernel)
  obtain ⟨⟨res, s⟩, hexec, hres⟩ := (Option.any_eq_true _ _).mp hp.2
  obtain rfl : res = .success := of_decide_eq_true hres
  have hcall : x.Calls (client 0) 7 (.lockX true) .success
      (x.after (client 0) 7 (.lockX true) .success s) :=
    ⟨rfl, s, run_of_exec hexec, rfl⟩
  refine ⟨_, acquired_of_proper 0 .init rfl hx ⟨by decide, ?_⟩ hcall, ?_⟩
  · rw [hp.1]
    decide
  · rw [held_after, hp.1]
    rfl

/-- Thread `0` locks a free lock recursively: success, and the word is still `0`. -/
theorem acquired_violated : ∃ y : LocalBoundary,
    (fresh .init).Calls (client 0) 0 (.lockX true) .success y ∧ (y.mem.ll 0).lockWord = .zero ∧
      ¬ Acquired (y.mem.ll 0) 0 (y.held 0) (.lockX true) := by
  have hexec : (((client 0).code 0 (.lockX true)).exec 1000 (fresh .init).mem).any
      (fun r => r.1 = .success ∧ (r.2.ll 0).lockWord = .zero) = true := by decide +kernel
  obtain ⟨⟨res, s⟩, hrun, hp⟩ := (Option.any_eq_true _ _).mp hexec
  obtain ⟨rfl, hword⟩ := of_decide_eq_true hp
  refine ⟨_, ⟨rfl, s, run_of_exec hrun, rfl⟩, hword, ?_⟩
  rintro ⟨hflag, -⟩
  have hzero : StateWord.xFlag (s.ll 0).lockWord = false := by
    rw [hword]
    rfl
  exact Bool.false_ne_true (hzero.symm.trans hflag)

end LocalOwners

end UbsAtomic
