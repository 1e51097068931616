import UbsAtomic.Data.Bits
import UbsAtomic.Lock.Alone

/-! Who has which part of `lock_word`, between two calls.

    When calls run one at a time, the fields of the lock are a ledger of the holds. A delayed
    release leaves the global hold of its node behind as a token; there is at most one token, since
    the single reservation is made with it and cleared with it.

        X_LOCK_DECR - lock_word = 65536 · X + 32768 · SX + nodes with an S
                                  (holders or token, for each mode)

    Locking and unlocking move one hold of one thread, so a step concerns one node and the shared
    object; `NodeOk` and `GlobOk` are the two halves of the ledger. -/

namespace UbsAtomic

open Conc Conc.Prog

namespace Ledger

/-- The token of a delayed release: its node and its mode. -/
abbrev Token := Option (NodeId × Mode)

/-- `local_is_reserve_lock` of node `n`. -/
def tokenAt : Token → NodeId → Mode
  | some (i, mode), n => if i = n then mode else .i
  | none, _ => .i

/-- 1 if the token keeps a hold of this mode. -/
def kept (mode : Mode) : Token → ℤ
  | some (_, mode') => if mode' = mode then 1 else 0
  | none => 0

def nS (h : Holds) : ℤ := h.s

def nSx (h : Holds) : ℤ := h.sx

def nX (h : Holds) : ℤ := h.x

/-- Whether node `n` has taken its unit of `lock_word`. -/
def unit (held : Actor → Holds) (o : Token) (n : NodeId) : ℤ :=
  if 0 < onNode n nS held ∨ o = some (n, .s) then 1 else 0

/-- The local lock of node `n`, with the token it has to show; `tidy` says that no `unlock_sx` has
    left its flag behind. -/
structure NodeOk (n : NodeId) (k : LocalLock) (held : Actor → Holds) (mode : Mode) (tidy : Prop) :
    Prop where
  ref : k.globalReadRefCount = onNode n nS held
  settled : k.globalState ≠ .pending
  idle : onNode n nS held = 0 → k.globalState = .idle
  token : k.localIsReserveLock = mode
  xWord : 0 < onNode n nX held → k.lockWord = .xState
  lanes : onNode n nX held = 0 → ∀ i, ((k.lockWord i).count : ℤ) = onLane n i nS held ∧
    (k.lockWord i).sentinel = false ∧ (i ≠ 0 → (k.lockWord i).flag = false)
  sxFlag : 0 < onNode n nSx held → (k.lockWord 0).flag = true
  clear : tidy → onNode n nSx held = 0 → (k.lockWord 0).flag = false
  ownX : ∀ t, 0 < (held (.app ⟨t, n⟩)).x → k.lockXOwner = t
  ownSx : ∀ t, 0 < (held (.app ⟨t, n⟩)).sx → k.lockSxOwner = t

/-- The shared object. -/
structure GlobOk (a : UbRwLock) (held : Actor → Holds) (o : Token) : Prop where
  word : xLockDecr - a.lockWord = xLockDecr * (total nX held + kept .x o) +
    xLockHalfDecr * (total nSx held + kept .sx o) + ∑ n, unit held o n
  nonneg : 0 ≤ a.lockWord
  oneSx : total nSx held + kept .sx o ≤ 1
  ownX : ∀ l, 0 < (held (.app l)).x → a.lockOwnerX = makeGlobalOwner l
  ownSx : ∀ l, 0 < (held (.app l)).sx → a.lockOwnerSx = makeGlobalOwner l
  free : o = none → a.reserveLockOwner = lockInvalidOwner
  reserved : ∀ n mode, o = some (n, mode) → mode ≠ .i ∧ OnNode n a.reserveLockOwner
  apart : ∀ n, o = some (n, .s) → onNode n nS held = 0
  bits : ∀ n : NodeId, n.val < 32 →
    a.sharedOwnerBitmap.getLsbD n.val = decide (unit held o n = 1)
  registry : ∀ n : NodeId, n.val < ubMaxNodes → a.nodeRegistry n = ubLockAddr

structure Ok (m : Mem) (held : Actor → Holds) (o : Token) (tidy : Prop) : Prop where
  created : ∀ n : NodeId, n.val < ubMaxNodes → m.registered n = true
  node : ∀ n, NodeOk n (m.ll n) held (tokenAt o n) tidy
  glob : GlobOk m.shm held o

/-! ### Counting -/

theorem nS_nonneg (h : Holds) : 0 ≤ nS h := Int.natCast_nonneg _

theorem nSx_nonneg (h : Holds) : 0 ≤ nSx h := Int.natCast_nonneg _

theorem nX_nonneg (h : Holds) : 0 ≤ nX h := Int.natCast_nonneg _

theorem kept_nonneg (mode : Mode) (o : Token) : 0 ≤ kept mode o := by
  unfold kept
  split
  · split <;> omega
  · omega

theorem unit_cases (held : Actor → Holds) (o : Token) (n : NodeId) :
    unit held o n = 0 ∨ unit held o n = 1 := by
  unfold unit
  split
  · exact .inr rfl
  · exact .inl rfl

theorem unit_nonneg (held : Actor → Holds) (o : Token) (n : NodeId) : 0 ≤ unit held o n := by
  rcases unit_cases held o n with h | h <;> omega

theorem sum_unit_nonneg (held : Actor → Holds) (o : Token) : 0 ≤ ∑ n, unit held o n :=
  Finset.sum_nonneg fun n _ => unit_nonneg held o n

theorem unit_le_sum (held : Actor → Holds) (o : Token) (n : NodeId) :
    unit held o n ≤ ∑ i, unit held o i :=
  le_sum_of_nonneg (unit_nonneg held o) n

section Holders

variable {a : UbRwLock} {k : LocalLock} {held : Actor → Holds} {o : Token} {mode : Mode}
  {l : Location}

theorem pos_onNode_s (h : 0 < (held (.app l)).s) : 0 < onNode l.nodeId nS held := by
  have hle := le_onNode (γ := held) nS_nonneg l
  simp only [nS] at hle
  omega

theorem pos_onNode_sx (h : 0 < (held (.app l)).sx) : 0 < onNode l.nodeId nSx held := by
  have hle := le_onNode (γ := held) nSx_nonneg l
  simp only [nSx] at hle
  omega

/-- A unit that is out leaves no room for X. -/
theorem GlobOk.no_x_of_unit (h : GlobOk a held o) {n : NodeId} (hu : unit held o n = 1) :
    total nX held = 0 ∧ kept .x o = 0 := by
  have h1 := unit_le_sum held o n
  have h2 := total_nonneg (γ := held) nX_nonneg
  have h3 := kept_nonneg .x o
  have h4 := total_nonneg (γ := held) nSx_nonneg
  have h5 := kept_nonneg .sx o
  have h6 := h.word
  have h7 := h.nonneg
  simp only [xLockDecr, xLockHalfDecr] at h6 h7
  constructor <;> omega

/-- A full word has everything. -/
theorem GlobOk.none_of_full (h : GlobOk a held o) (hw : a.lockWord = xLockDecr) :
    total nX held = 0 ∧ total nSx held = 0 ∧ o = none ∧ ∀ n, unit held o n = 0 := by
  have h2 := total_nonneg (γ := held) nX_nonneg
  have h3 := kept_nonneg .x o
  have h4 := total_nonneg (γ := held) nSx_nonneg
  have h5 := kept_nonneg .sx o
  have h6 := h.word
  have h7 := sum_unit_nonneg held o
  rw [hw] at h6
  simp only [xLockDecr, xLockHalfDecr] at h6
  have hunits : ∀ n, unit held o n = 0 := by
    intro n
    have h8 := unit_le_sum held o n
    have h9 := unit_nonneg held o n
    omega
  refine ⟨by omega, by omega, ?_, hunits⟩
  -- a token of any mode would be missing from the word
  cases o with
  | none => rfl
  | some t =>
    obtain ⟨n, mode⟩ := t
    exfalso
    have hmode := (h.reserved n mode rfl).1
    have hx : kept .x (some (n, mode)) = 0 := by omega
    have hsx : kept .sx (some (n, mode)) = 0 := by omega
    have hu := hunits n
    cases mode <;> simp [kept, unit] at hmode hx hsx hu

/-- While X is out nothing else is. -/
theorem GlobOk.alone_of_x (h : GlobOk a held o) (hx : 0 < total nX held + kept .x o) :
    a.lockWord = 0 ∧ total nX held + kept .x o = 1 ∧ total nSx held + kept .sx o = 0 ∧
      ∑ n, unit held o n = 0 := by
  have h2 := total_nonneg (γ := held) nX_nonneg
  have h3 := kept_nonneg .x o
  have h4 := total_nonneg (γ := held) nSx_nonneg
  have h5 := kept_nonneg .sx o
  have h6 := h.word
  have h7 := sum_unit_nonneg held o
  have h8 := h.nonneg
  simp only [xLockDecr, xLockHalfDecr] at h6
  refine ⟨by omega, by omega, by omega, by omega⟩

/-- While a thread holds X there is no token. -/
theorem GlobOk.token_of_x (h : GlobOk a held o) (hx : 0 < (held (.app l)).x) : o = none := by
  have hle := le_total (γ := held) nX_nonneg l
  have hk := kept_nonneg .x o
  have hone : 1 ≤ nX (held (.app l)) := by
    unfold nX
    omega
  obtain ⟨-, h1, h2, h3⟩ := h.alone_of_x (by omega)
  cases o with
  | none => rfl
  | some t =>
    obtain ⟨n, mode⟩ := t
    exfalso
    have hmode := (h.reserved n mode rfl).1
    have hu := unit_le_sum held (some (n, mode)) n
    have ht := total_nonneg (γ := held) nSx_nonneg
    have hk2 := kept_nonneg .sx (some (n, mode))
    have hx0 : kept .x (some (n, mode)) = 0 := by omega
    have hsx0 : kept .sx (some (n, mode)) = 0 := by omega
    have hu0 : unit held (some (n, mode)) n = 0 := by
      have := unit_nonneg held (some (n, mode)) n
      omega
    cases mode <;> simp [kept, unit] at hmode hx0 hsx0 hu0

theorem GlobOk.reservable (h : GlobOk a held o) : Alone.Reservable a := by
  refine ⟨?_, h.registry⟩
  cases o with
  | none => exact .inl (h.free rfl)
  | some t => exact .inr ⟨t.1, (h.reserved t.1 t.2 rfl).2⟩

end Holders

/-! ### One hold moves -/

section Moves

variable {a a' : UbRwLock} {k : LocalLock} {held : Actor → Holds} {o o' : Token} {mode : Mode}
  {l : Location} {h' : Holds} {tidy tidy' : Prop}

/-- The shared object after a step of thread `l`. -/
theorem GlobOk.step (h : GlobOk a held o)
    (ho : ∀ n, n ≠ l.nodeId → (o' = some (n, .s) ↔ o = some (n, .s)))
    (hw : a'.lockWord = a.lockWord
      - xLockDecr * (nX h' - nX (held (.app l)) + kept .x o' - kept .x o)
      - xLockHalfDecr * (nSx h' - nSx (held (.app l)) + kept .sx o' - kept .sx o)
      - (unit (Function.update held (.app l) h') o' l.nodeId - unit held o l.nodeId))
    (h0 : 0 ≤ a'.lockWord)
    (h1 : total nSx held + nSx h' - nSx (held (.app l)) + kept .sx o' ≤ 1)
    (hx : ∀ i, 0 < (Function.update held (.app l) h' (.app i)).x → a'.lockOwnerX = makeGlobalOwner i)
    (hsx : ∀ i, 0 < (Function.update held (.app l) h' (.app i)).sx →
      a'.lockOwnerSx = makeGlobalOwner i)
    (hfree : o' = none → a'.reserveLockOwner = lockInvalidOwner)
    (hres : ∀ n mode, o' = some (n, mode) → mode ≠ .i ∧ OnNode n a'.reserveLockOwner)
    (hapart : o' = some (l.nodeId, .s) →
      onNode l.nodeId nS (Function.update held (.app l) h') = 0)
    (hb : ∀ n : NodeId, n.val < 32 → a'.sharedOwnerBitmap.getLsbD n.val =
      if n = l.nodeId then decide (unit (Function.update held (.app l) h') o' n = 1)
      else a.sharedOwnerBitmap.getLsbD n.val)
    (hr : a'.nodeRegistry = a.nodeRegistry) :
    GlobOk a' (Function.update held (.app l) h') o' := by
  have hunit : ∀ i, i ≠ l.nodeId → unit (Function.update held (.app l) h') o' i = unit held o i := by
    intro i hi
    simp only [unit, onNode_update, if_neg (Ne.symm hi), add_zero, ho i hi]
  refine ⟨?_, h0, ?_, hx, hsx, hfree, hres, fun n hn => ?_, fun n hn => ?_,
    by rw [hr]; exact h.registry⟩
  · rw [sum_change l.nodeId hunit, total_update, total_update, hw]
    have := h.word
    simp only [xLockDecr, xLockHalfDecr] at this ⊢
    linarith
  · rw [total_update]
    linarith
  · by_cases hne : n = l.nodeId
    · subst hne
      exact hapart hn
    · rw [onNode_update, if_neg (Ne.symm hne), add_zero]
      exact h.apart n ((ho n hne).mp hn)
  · rw [hb n hn]
    split
    · rfl
    · rename_i hne
      rw [hunit n hne]
      exact h.bits n hn

/-- The other nodes do not notice a step of thread `l`. -/
theorem NodeOk.other {n : NodeId} (h : NodeOk n k held mode tidy) (hn : l.nodeId ≠ n) :
    NodeOk n k (Function.update held (.app l) h') mode tidy := by
  have hon : ∀ f : Holds → ℤ, onNode n f (Function.update held (.app l) h') = onNode n f held :=
    fun f => by rw [onNode_update, if_neg hn, add_zero]
  have hlane : ∀ i (f : Holds → ℤ),
      onLane n i f (Function.update held (.app l) h') = onLane n i f held :=
    fun i f => by rw [onLane_update, if_neg fun e => hn e.1, add_zero]
  have hheld : ∀ t, Function.update held (.app l) h' (.app ⟨t, n⟩) = held (.app ⟨t, n⟩) :=
    fun t => Function.update_of_ne (fun e => hn (by cases e; rfl)) _ _
  refine ⟨?_, h.settled, ?_, h.token, ?_, ?_, ?_, ?_, ?_, ?_⟩
  · rw [hon]; exact h.ref
  · rw [hon]; exact h.idle
  · rw [hon]; exact h.xWord
  · simp only [hon, hlane]; exact h.lanes
  · rw [hon]; exact h.sxFlag
  · rw [hon]; exact h.clear
  · intro t; rw [hheld]; exact h.ownX t
  · intro t; rw [hheld]; exact h.ownSx t

theorem NodeOk.loosen {n : NodeId} (h : NodeOk n k held mode tidy) (ht : tidy' → tidy) :
    NodeOk n k held mode tidy' :=
  { h with clear := fun ht' => h.clear (ht ht') }

/-- The ledger after a step of thread `l` on its node and the shared object. -/
theorem Ok.step {m : Mem} {k' : LocalLock} (h : Ok m held o tidy) (htidy : tidy' → tidy)
    (ht : ∀ n, n ≠ l.nodeId → tokenAt o' n = tokenAt o n)
    (hk : NodeOk l.nodeId k' (Function.update held (.app l) h') (tokenAt o' l.nodeId) tidy')
    (ha : GlobOk a' (Function.update held (.app l) h') o') :
    Ok (m.put l.nodeId a' k') (Function.update held (.app l) h') o' tidy' := by
  refine ⟨h.created, fun n => ?_, ha⟩
  by_cases hn : n = l.nodeId
  · subst hn
    simpa [Mem.put] using hk
  · rw [ht n hn]
    simpa [Mem.put, hn] using ((h.node n).other (Ne.symm hn)).loosen htidy

/-! #### The node -/

theorem xFlag_xState : StateWord.xFlag .xState = true := rfl

/-- A word without the X flag is that of a node without X. -/
theorem NodeOk.no_x {n : NodeId} (h : NodeOk n k held mode tidy)
    (hx : StateWord.xFlag k.lockWord = false) : onNode n nX held = 0 := by
  by_contra hne
  have hpos : 0 < onNode n nX held := lt_of_le_of_ne (onNode_nonneg nX_nonneg n) (Ne.symm hne)
  rw [h.xWord hpos, xFlag_xState] at hx
  cases hx

theorem NodeOk.no_x_of_zero {n : NodeId} (h : NodeOk n k held mode tidy) (hz : k.lockWord = .zero) :
    onNode n nX held = 0 :=
  h.no_x (by rw [hz]; rfl)

theorem held_other {t : Tid} (ht : t ≠ l.tid) :
    Function.update held (.app l) h' (.app ⟨t, l.nodeId⟩) = held (.app ⟨t, l.nodeId⟩) :=
  Function.update_of_ne (fun e => ht (congrArg Location.tid (Actor.app.inj e))) _ _

variable (h') in
/-- The owner fields when thread `l` changes neither X nor SX. -/
theorem NodeOk.own_keep (h : NodeOk l.nodeId k held mode tidy) (hx : h'.x = (held (.app l)).x)
    (hsx : h'.sx = (held (.app l)).sx) :
    (∀ t, 0 < (Function.update held (.app l) h' (.app ⟨t, l.nodeId⟩)).x → k.lockXOwner = t) ∧
      ∀ t, 0 < (Function.update held (.app l) h' (.app ⟨t, l.nodeId⟩)).sx → k.lockSxOwner = t := by
  have hcase : ∀ t, (Function.update held (.app l) h' (.app ⟨t, l.nodeId⟩)).x
      = (held (.app ⟨t, l.nodeId⟩)).x ∧ (Function.update held (.app l) h' (.app ⟨t, l.nodeId⟩)).sx
      = (held (.app ⟨t, l.nodeId⟩)).sx := by
    intro t
    by_cases ht : t = l.tid
    · subst ht
      simp [hx, hsx]
    · rw [held_other ht]
      exact ⟨rfl, rfl⟩
  refine ⟨fun t ht => h.ownX t ?_, fun t ht => h.ownSx t ?_⟩
  · rwa [(hcase t).1] at ht
  · rwa [(hcase t).2] at ht

theorem onNode_self_update (f : Holds → ℤ) :
    onNode l.nodeId f (Function.update held (.app l) h')
      = onNode l.nodeId f held + (f h' - f (held (.app l))) := by
  rw [onNode_update, if_pos rfl]

/-- A thread takes or drops S: its lane and the reference count move by `d`. -/
theorem NodeOk.shiftS (h : NodeOk l.nodeId k held mode tidy) (hno : onNode l.nodeId nX held = 0)
    {d r : ℤ} {s c : ℕ} (hs : (s : ℤ) = (held (.app l)).s + d)
    (hc : (c : ℤ) = (k.lockWord (laneForTid l.tid)).count + d) (hr : r = onNode l.nodeId nS held + d)
    {state : GlobalState} (hstate : state ≠ .pending) (hidle : r = 0 → state = .idle) {mode' : Mode}
    {b : Bool} :
    NodeOk l.nodeId
      { k with
        lockWord := Function.update k.lockWord (laneForTid l.tid)
          { k.lockWord (laneForTid l.tid) with count := c }
        globalReadRefCount := r, holdGlobal := b, globalState := state, localIsReserveLock := mode' }
      (Function.update held (.app l) { held (.app l) with s := s }) mode' tidy := by
  have hown := h.own_keep { held (.app l) with s := s } rfl rfl
  set γ := Function.update held (.app l) { held (.app l) with s := s } with hγ
  have hd : nS { held (.app l) with s := s } - nS (held (.app l)) = d := by
    simp only [nS, hs]
    ring
  have hS : onNode l.nodeId nS γ = r := by rw [hγ, onNode_self_update, hd, hr]
  have hX : onNode l.nodeId nX γ = 0 := by simp [hγ, onNode_self_update, nX, hno]
  have hSx : onNode l.nodeId nSx γ = onNode l.nodeId nSx held := by
    simp [hγ, onNode_self_update, nSx]
  have hflag : (Function.update k.lockWord (laneForTid l.tid)
      { k.lockWord (laneForTid l.tid) with count := c } 0).flag = (k.lockWord 0).flag := by
    by_cases hi : 0 = laneForTid l.tid
    · simp [hi]
    · simp [hi]
  refine ⟨hS.symm, hstate, fun h0 => hidle (hS.symm.trans h0), rfl, fun h0 => ?_, fun _ i => ?_,
    fun h0 => ?_, fun ht h0 => ?_, hown.1, hown.2⟩
  · rw [hX] at h0
    exact absurd h0 (lt_irrefl 0)
  · obtain ⟨hcount, hsen, hf⟩ := h.lanes hno i
    by_cases hi : i = laneForTid l.tid
    · subst hi
      rw [hγ, onLane_update, if_pos ⟨rfl, rfl⟩, hd, ← hcount]
      simp only [Function.update_self]
      exact ⟨hc, hsen, hf⟩
    · rw [hγ, onLane_update, if_neg fun e => hi e.2.symm, add_zero]
      simp only [Function.update_of_ne hi]
      exact ⟨hcount, hsen, hf⟩
  · rw [hSx] at h0
    exact hflag.trans (h.sxFlag h0)
  · rw [hSx] at h0
    exact hflag.trans (h.clear ht h0)

/-- A thread takes S. -/
theorem NodeOk.addS (h : NodeOk l.nodeId k held mode tidy) (hx : StateWord.xFlag k.lockWord = false)
    {r : ℤ} (hr : r = onNode l.nodeId nS held + 1) {state : GlobalState} (hstate : state ≠ .pending)
    {mode' : Mode} {b : Bool} :
    NodeOk l.nodeId
      { Alone.addReader (laneForTid l.tid) k with
        globalReadRefCount := r, holdGlobal := b, globalState := state, localIsReserveLock := mode' }
      (Function.update held (.app l) { held (.app l) with s := (held (.app l)).s + 1 }) mode'
      tidy := by
  have hpos := onNode_nonneg (γ := held) nS_nonneg l.nodeId
  have hne : r ≠ 0 := by omega
  exact h.shiftS (h.no_x hx) (Nat.cast_succ _) (Nat.cast_succ _) hr hstate fun h0 => absurd h0 hne

/-- A thread drops S. -/
theorem NodeOk.dropS (h : NodeOk l.nodeId k held mode tidy) (hno : onNode l.nodeId nX held = 0)
    (hs : 0 < (held (.app l)).s) {r : ℤ} (hr : r = onNode l.nodeId nS held - 1)
    {state : GlobalState} (hstate : state ≠ .pending) (hidle : r = 0 → state = .idle) {mode' : Mode}
    {b : Bool} :
    NodeOk l.nodeId
      { Alone.dropReader (laneForTid l.tid) k with
        globalReadRefCount := r, holdGlobal := b, globalState := state, localIsReserveLock := mode' }
      (Function.update held (.app l) { held (.app l) with s := (held (.app l)).s - 1 }) mode'
      tidy := by
  have hle := le_onLane (γ := held) nS_nonneg l
  rw [← (h.lanes hno _).1, nS] at hle
  have hcount := hs.trans_le (Nat.cast_le.mp hle)
  have hpred : ∀ {n : ℕ}, 0 < n → ((n - 1 : ℕ) : ℤ) = n + -1 := fun hn => by omega
  exact h.shiftS hno (hpred hs) (hpred hcount) hr hstate hidle

/-- With no SX on the node, nobody of the node holds SX. -/
theorem sx_zero_of_onNode {n : NodeId} (h : onNode n nSx held = 0) (t : Tid) :
    (held (.app ⟨t, n⟩)).sx = 0 := by
  have hle := le_onNode (γ := held) nSx_nonneg ⟨t, n⟩
  simp only [nSx] at hle
  omega

theorem x_zero_of_onNode {n : NodeId} (h : onNode n nX held = 0) (t : Tid) :
    (held (.app ⟨t, n⟩)).x = 0 := by
  have hle := le_onNode (γ := held) nX_nonneg ⟨t, n⟩
  simp only [nX] at hle
  omega

theorem onLane_zero {n : NodeId} (h : onNode n nS held = 0) (i : Fin 4) :
    onLane n i nS held = 0 := by
  have hle : onLane n i nS held ≤ onNode n nS held := by
    rw [onNode_eq_sum_onLane]
    exact le_sum_of_nonneg (fun j => onLane_nonneg nS_nonneg n j) i
  have := onLane_nonneg (γ := held) nS_nonneg n i
  omega

/-- Only the token is written. -/
theorem NodeOk.setToken {n : NodeId} (h : NodeOk n k held mode tidy) (mode' : Mode) :
    NodeOk n { k with localIsReserveLock := mode' } held mode' tidy :=
  ⟨h.ref, h.settled, h.idle, rfl, h.xWord, h.lanes, h.sxFlag, h.clear, h.ownX, h.ownSx⟩

theorem NodeOk.setFlag {n : NodeId} (h : NodeOk n k held mode tidy) (b : Bool) :
    NodeOk n { k with remoteReleaseInProgress := b } held mode tidy :=
  ⟨h.ref, h.settled, h.idle, h.token, h.xWord, h.lanes, h.sxFlag, h.clear, h.ownX, h.ownSx⟩

/-- A free local word has no SX holder behind it. -/
theorem NodeOk.no_sx {n : NodeId} (h : NodeOk n k held mode tidy) (hf : (k.lockWord 0).flag = false) :
    onNode n nSx held = 0 := by
  by_contra hne
  have hpos : 0 < onNode n nSx held := lt_of_le_of_ne (onNode_nonneg nSx_nonneg n) (Ne.symm hne)
  rw [h.sxFlag hpos] at hf
  cases hf

/-- A thread takes X. -/
theorem NodeOk.addX (h : NodeOk l.nodeId k held mode tidy) (hz : k.lockWord = .zero) {mode' : Mode}
    {b : Bool} :
    NodeOk l.nodeId
      { k with
        lockWord := .xState, lockXOwner := l.tid, xRecursive := 1, localIsReserveLock := mode'
        holdGlobal := b }
      (Function.update held (.app l) { held (.app l) with x := (held (.app l)).x + 1 }) mode'
      tidy := by
  set γ := Function.update held (.app l) { held (.app l) with x := (held (.app l)).x + 1 } with hγ
  have hx := h.no_x_of_zero hz
  have hsx := h.no_sx (by rw [hz]; rfl)
  have hS : onNode l.nodeId nS γ = onNode l.nodeId nS held := by
    rw [onNode_self_update]
    simp [nS]
  have hX : onNode l.nodeId nX γ = 1 := by
    rw [onNode_self_update, hx]
    simp [nX]
  have hSx : onNode l.nodeId nSx γ = 0 := by
    rw [onNode_self_update, hsx]
    simp [nSx]
  refine ⟨by rw [hS]; exact h.ref, h.settled, by rw [hS]; exact h.idle, rfl, fun _ => rfl,
    fun h0 => ?_, fun h0 => ?_, fun _ _ => rfl, fun t ht => ?_, fun t ht => ?_⟩
  · rw [hX] at h0
    cases h0
  · rw [hSx] at h0
    exact absurd h0 (lt_irrefl 0)
  · by_cases htid : t = l.tid
    · exact htid.symm
    · rw [hγ, held_other htid, x_zero_of_onNode hx] at ht
      exact absurd ht (lt_irrefl 0)
  · rw [sx_zero_of_onNode hSx] at ht
    exact absurd ht (lt_irrefl 0)

/-- A thread drops X. -/
theorem NodeOk.dropX (h : NodeOk l.nodeId k held mode tidy) (hx : (held (.app l)).x = 1)
    (hX : onNode l.nodeId nX held = 1) (hS : onNode l.nodeId nS held = 0)
    (hSx : onNode l.nodeId nSx held = 0) {mode' : Mode} {b : Bool} :
    NodeOk l.nodeId
      (Alone.leaveX false
        { k with localIsReserveLock := mode', holdGlobal := b, globalState := .idle })
      (Function.update held (.app l) { held (.app l) with x := (held (.app l)).x - 1 }) mode'
      tidy := by
  set γ := Function.update held (.app l) { held (.app l) with x := (held (.app l)).x - 1 } with hγ
  have hS' : onNode l.nodeId nS γ = 0 := by
    rw [onNode_self_update, hS]
    simp [nS]
  have hX' : onNode l.nodeId nX γ = 0 := by
    rw [onNode_self_update, hX]
    simp [nX, hx]
  have hSx' : onNode l.nodeId nSx γ = 0 := by
    rw [onNode_self_update, hSx]
    simp [nSx]
  rw [Alone.leaveX, if_neg (by simp)]
  refine ⟨by rw [hS', ← hS]; exact h.ref, (by decide : GlobalState.idle ≠ .pending), fun _ => rfl, rfl,
    fun h0 => ?_, fun _ i => ?_,
    fun h0 => ?_, fun _ _ => rfl, fun t ht => ?_, fun t ht => ?_⟩
  · rw [hX'] at h0
    exact absurd h0 (lt_irrefl 0)
  · rw [onLane_zero hS']
    exact ⟨rfl, rfl, fun _ => rfl⟩
  · rw [hSx'] at h0
    exact absurd h0 (lt_irrefl 0)
  · rw [x_zero_of_onNode hX'] at ht
    exact absurd ht (lt_irrefl 0)
  · rw [sx_zero_of_onNode hSx'] at ht
    exact absurd ht (lt_irrefl 0)

/-- A thread takes SX. -/
theorem NodeOk.addSx (h : NodeOk l.nodeId k held mode tidy) (hx : StateWord.xFlag k.lockWord = false)
    (hf : (k.lockWord 0).flag = false) {mode' : Mode} {b : Bool} :
    NodeOk l.nodeId
      { Alone.setSx true k with
        lockSxOwner := l.tid, sxRecursive := 1, localIsReserveLock := mode', holdGlobal := b }
      (Function.update held (.app l) { held (.app l) with sx := (held (.app l)).sx + 1 }) mode'
      tidy := by
  set γ := Function.update held (.app l) { held (.app l) with sx := (held (.app l)).sx + 1 } with hγ
  have hno := h.no_x hx
  have hsx := h.no_sx hf
  have hS : onNode l.nodeId nS γ = onNode l.nodeId nS held := by
    rw [onNode_self_update]
    simp [nS]
  have hX : onNode l.nodeId nX γ = 0 := by
    rw [onNode_self_update, hno]
    simp [nX]
  have hSx : onNode l.nodeId nSx γ = 1 := by
    rw [onNode_self_update, hsx]
    simp [nSx]
  refine ⟨by rw [hS]; exact h.ref, h.settled, by rw [hS]; exact h.idle, rfl, fun h0 => ?_,
    fun _ i => ?_, fun _ => by simp [Alone.setSx], fun _ h0 => ?_, fun t ht => ?_, fun t ht => ?_⟩
  · rw [hX] at h0
    exact absurd h0 (lt_irrefl 0)
  · obtain ⟨hc, hs, hflag⟩ := h.lanes hno i
    rw [onLane_update]
    have hsame : nS { held (.app l) with sx := (held (.app l)).sx + 1 } - nS (held (.app l)) = 0 := by
      simp [nS]
    rw [hsame, ite_self, add_zero]
    by_cases hi : i = 0
    · subst hi
      simp only [Alone.setSx, Function.update_self]
      exact ⟨hc, hs, fun h0 => absurd rfl h0⟩
    · simp only [Alone.setSx, Function.update_of_ne hi]
      exact ⟨hc, hs, hflag⟩
  · rw [hSx] at h0
    cases h0
  · rw [x_zero_of_onNode hX] at ht
    exact absurd ht (lt_irrefl 0)
  · by_cases htid : t = l.tid
    · exact htid.symm
    · rw [hγ, held_other htid, sx_zero_of_onNode hsx] at ht
      exact absurd ht (lt_irrefl 0)

/-- A thread drops SX; whether the local word shows it is left open. -/
theorem NodeOk.dropSx (h : NodeOk l.nodeId k held mode tidy) (hno : onNode l.nodeId nX held = 0)
    (hsx : (held (.app l)).sx = 1) (hSx : onNode l.nodeId nSx held = 1) {mode' : Mode}
    {b : Bool} :
    NodeOk l.nodeId
        (Alone.leaveSx false
          { k with localIsReserveLock := mode', holdGlobal := b, globalState := .idle })
        (Function.update held (.app l) { held (.app l) with sx := (held (.app l)).sx - 1 }) mode'
        tidy ∧
      NodeOk l.nodeId { k with localIsReserveLock := mode', holdGlobal := b }
        (Function.update held (.app l) { held (.app l) with sx := (held (.app l)).sx - 1 }) mode'
        False := by
  set γ := Function.update held (.app l) { held (.app l) with sx := (held (.app l)).sx - 1 } with hγ
  have hS : onNode l.nodeId nS γ = onNode l.nodeId nS held := by
    rw [onNode_self_update]
    simp [nS]
  have hX : onNode l.nodeId nX γ = 0 := by
    rw [onNode_self_update, hno]
    simp [nX]
  have hSx' : onNode l.nodeId nSx γ = 0 := by
    rw [onNode_self_update, hSx]
    simp [nSx, hsx]
  have hlane : ∀ i, onLane l.nodeId i nS γ = onLane l.nodeId i nS held := by
    intro i
    rw [onLane_update]
    simp [nS]
  have hnoX : ∀ t, ¬ 0 < (γ (.app ⟨t, l.nodeId⟩)).x := by
    intro t
    rw [x_zero_of_onNode hX]
    exact lt_irrefl 0
  have hnoSx : ∀ t, ¬ 0 < (γ (.app ⟨t, l.nodeId⟩)).sx := by
    intro t
    rw [sx_zero_of_onNode hSx']
    exact lt_irrefl 0
  have hx0 : ¬ 0 < onNode l.nodeId nX γ := by
    rw [hX]
    exact lt_irrefl 0
  have hsx0 : ¬ 0 < onNode l.nodeId nSx γ := by
    rw [hSx']
    exact lt_irrefl 0
  constructor
  · rw [Alone.leaveSx, if_neg (by simp)]
    refine ⟨by rw [hS]; exact h.ref, (by decide : GlobalState.idle ≠ .pending), fun _ => rfl, rfl,
      fun h0 => absurd h0 hx0,
      fun _ i => ?_, fun h0 => absurd h0 hsx0, fun _ _ => by simp [Alone.setSx],
      fun t ht => absurd ht (hnoX t), fun t ht => absurd ht (hnoSx t)⟩
    obtain ⟨hc, hs, hflag⟩ := h.lanes hno i
    rw [hlane]
    by_cases hi : i = 0
    · subst hi
      simp only [Alone.setSx, Function.update_self]
      exact ⟨hc, hs, fun h0 => absurd rfl h0⟩
    · simp only [Alone.setSx, Function.update_of_ne hi]
      exact ⟨hc, hs, hflag⟩
  · refine ⟨by rw [hS]; exact h.ref, h.settled, by rw [hS]; exact h.idle, rfl,
      fun h0 => absurd h0 hx0, fun _ i => ?_, fun h0 => absurd h0 hsx0, False.elim,
      fun t ht => absurd ht (hnoX t), fun t ht => absurd ht (hnoSx t)⟩
    rw [hlane]
    exact h.lanes hno i

/-! #### The shared object -/

theorem unit_eq_one {n : NodeId} (h : 0 < onNode n nS held ∨ o = some (n, .s)) :
    unit held o n = 1 := if_pos h

theorem unit_eq_zero {n : NodeId} (h : onNode n nS held = 0) (ho : o ≠ some (n, .s)) :
    unit held o n = 0 := if_neg fun e => e.elim (fun h0 => by omega) ho

/-- The owner field of a mode that thread `l` leaves alone. -/
theorem owner_keep {f : Holds → ℕ} {v : ℕ} (h : ∀ i, 0 < f (held (.app i)) → v = makeGlobalOwner i)
    (hf : f h' = f (held (.app l))) (i : Location)
    (hi : 0 < f (Function.update held (.app l) h' (.app i))) : v = makeGlobalOwner i := by
  refine h i ?_
  by_cases hne : i = l
  · subst hne
    rwa [Function.update_self, hf] at hi
  · rwa [Function.update_of_ne fun e => hne (Actor.app.inj e)] at hi

/-- Thread `l` takes or drops S: only the unit of its node can change. -/
theorem GlobOk.stepS (h : GlobOk a held o) (hx : h'.x = (held (.app l)).x)
    (hsx : h'.sx = (held (.app l)).sx)
    (ho : ∀ n, n ≠ l.nodeId → (o' = some (n, .s) ↔ o = some (n, .s)))
    (hkx : kept .x o' = kept .x o) (hksx : kept .sx o' = kept .sx o) {w : ℤ} {v : ℕ} {b : BitVec 32}
    (hw : w = a.lockWord
      - (unit (Function.update held (.app l) h') o' l.nodeId - unit held o l.nodeId))
    (h0 : 0 ≤ w) (hfree : o' = none → v = lockInvalidOwner)
    (hres : ∀ n mode, o' = some (n, mode) → mode ≠ .i ∧ OnNode n v)
    (hapart : o' = some (l.nodeId, .s) → onNode l.nodeId nS (Function.update held (.app l) h') = 0)
    (hb : ∀ n : NodeId, n.val < 32 → b.getLsbD n.val =
      if n = l.nodeId then decide (unit (Function.update held (.app l) h') o' n = 1)
      else a.sharedOwnerBitmap.getLsbD n.val) :
    GlobOk { a with lockWord := w, reserveLockOwner := v, sharedOwnerBitmap := b }
      (Function.update held (.app l) h') o' := by
  refine h.step ho ?_ h0 ?_ (owner_keep h.ownX hx) (owner_keep h.ownSx hsx) hfree hres hapart hb rfl
  · simp only [nX, nSx, hx, hsx, hkx, hksx, hw]
    ring
  · simp only [nSx, hsx, hksx]
    have := h.oneSx
    linarith

/-- Thread `l` takes or drops X or SX: the units stay. -/
theorem GlobOk.stepX (h : GlobOk a held o) (hs : h'.s = (held (.app l)).s)
    (ho : ∀ n, o' = some (n, .s) ↔ o = some (n, .s))
    (hbits : a'.sharedOwnerBitmap = a.sharedOwnerBitmap) (hr : a'.nodeRegistry = a.nodeRegistry)
    (hw : a'.lockWord = a.lockWord
      - xLockDecr * (nX h' - nX (held (.app l)) + kept .x o' - kept .x o)
      - xLockHalfDecr * (nSx h' - nSx (held (.app l)) + kept .sx o' - kept .sx o))
    (h0 : 0 ≤ a'.lockWord)
    (h1 : total nSx held + nSx h' - nSx (held (.app l)) + kept .sx o' ≤ 1)
    (hx : ∀ i, 0 < (Function.update held (.app l) h' (.app i)).x → a'.lockOwnerX = makeGlobalOwner i)
    (hsx : ∀ i, 0 < (Function.update held (.app l) h' (.app i)).sx →
      a'.lockOwnerSx = makeGlobalOwner i)
    (hfree : o' = none → a'.reserveLockOwner = lockInvalidOwner)
    (hres : ∀ n mode, o' = some (n, mode) → mode ≠ .i ∧ OnNode n a'.reserveLockOwner) :
    GlobOk a' (Function.update held (.app l) h') o' := by
  have hS : onNode l.nodeId nS (Function.update held (.app l) h') = onNode l.nodeId nS held := by
    rw [onNode_self_update]
    simp [nS, hs]
  have hu : unit (Function.update held (.app l) h') o' l.nodeId = unit held o l.nodeId := by
    simp only [unit, hS, ho]
  refine h.step (fun n _ => ho n) ?_ h0 h1 hx hsx hfree hres (fun e => ?_) (fun n hn => ?_) hr
  · rw [hw, hu]
    ring
  · rw [hS]
    exact h.apart _ ((ho _).mp e)
  · rw [hbits]
    split
    · rename_i hne
      subst hne
      rw [hu]
      exact h.bits _ hn
    · rfl

/-! #### The calls, on the shared object -/

theorem onNode_gainS : onNode l.nodeId nS
    (Function.update held (.app l) { held (.app l) with s := (held (.app l)).s + 1 })
    = onNode l.nodeId nS held + 1 := by
  rw [onNode_self_update]
  simp [nS]

theorem onNode_loseS (hs : 0 < (held (.app l)).s) : onNode l.nodeId nS
    (Function.update held (.app l) { held (.app l) with s := (held (.app l)).s - 1 })
    = onNode l.nodeId nS held - 1 := by
  have hcast : (((held (.app l)).s - 1 : ℕ) : ℤ) = (held (.app l)).s - 1 := by omega
  rw [onNode_self_update]
  simp only [nS, hcast]
  ring

theorem bits_setBit (hn : l.nodeId.val < ubMaxNodes) (n : NodeId) :
    (Alone.setBit l.nodeId a).sharedOwnerBitmap.getLsbD n.val
      = if n = l.nodeId then true else a.sharedOwnerBitmap.getLsbD n.val := by
  rw [Alone.setBit, Bits.getLsbD_setBit _ (Nat.lt_of_not_le (Alone.not_ge_of_lt hn))]
  simp only [Fin.ext_iff]

theorem bits_clearBit (hn : l.nodeId.val < ubMaxNodes) (n : NodeId) :
    (Alone.clearBit l.nodeId a).sharedOwnerBitmap.getLsbD n.val
      = if n = l.nodeId then false else a.sharedOwnerBitmap.getLsbD n.val := by
  rw [Alone.clearBit, Bits.getLsbD_clearBit _ (Nat.lt_of_not_le (Alone.not_ge_of_lt hn))]
  simp only [Fin.ext_iff]

/-- S comes or goes on a node that has S before and after. -/
theorem GlobOk.sameUnit (h : GlobOk a held o) (hx : h'.x = (held (.app l)).x)
    (hsx : h'.sx = (held (.app l)).sx) (hpos : 0 < onNode l.nodeId nS held)
    (hpos' : 0 < onNode l.nodeId nS (Function.update held (.app l) h')) :
    GlobOk a (Function.update held (.app l) h') o := by
  have hu : unit held o l.nodeId = 1 := unit_eq_one (.inl hpos)
  have hu' : unit (Function.update held (.app l) h') o l.nodeId = 1 := unit_eq_one (.inl hpos')
  refine h.stepS hx hsx (fun _ _ => Iff.rfl) rfl rfl (w := a.lockWord) (v := a.reserveLockOwner)
    (b := a.sharedOwnerBitmap) ?_ h.nonneg h.free h.reserved (fun e => ?_) fun n hn => ?_
  · rw [hu, hu']
    ring
  · exact absurd (h.apart _ e) hpos.ne'
  · split
    · rename_i hne
      subst hne
      rw [h.bits _ hn, hu, hu']
    · rfl

/-- The leader finds the unit of its node in the token. -/
theorem GlobOk.inheritS (h : GlobOk a held (some (l.nodeId, .s))) (hn : l.nodeId.val < ubMaxNodes) :
    GlobOk (Alone.setBit l.nodeId { a with reserveLockOwner := lockInvalidOwner })
      (Function.update held (.app l) { held (.app l) with s := (held (.app l)).s + 1 }) none := by
  have hpos := onNode_nonneg (γ := held) nS_nonneg l.nodeId
  have hu : unit held (some (l.nodeId, .s)) l.nodeId = 1 := unit_eq_one (.inr rfl)
  have hu' : unit (Function.update held (.app l) { held (.app l) with s := (held (.app l)).s + 1 })
      none l.nodeId = 1 := by
    refine unit_eq_one (.inl ?_)
    rw [onNode_gainS]
    omega
  refine h.stepS (by rfl) (by rfl) (fun n hne => ?_) (by rfl) (by rfl) (w := a.lockWord)
    (v := lockInvalidOwner) ?_
    h.nonneg (fun _ => rfl) (by simp) (by simp) fun n h32 => ?_
  · simp [Ne.symm hne]
  · rw [hu, hu']
    ring
  · refine (bits_setBit hn n).trans ?_
    split
    · rename_i hne
      subst hne
      rw [hu', decide_eq_true rfl]
    · rfl

/-- The leader takes a unit of the word. -/
theorem GlobOk.leadS (h : GlobOk a held o) (hn : l.nodeId.val < ubMaxNodes)
    (ho : o ≠ some (l.nodeId, .s)) (hz : onNode l.nodeId nS held = 0) (hw : 0 < a.lockWord) :
    GlobOk (Alone.setBit l.nodeId { a with lockWord := a.lockWord - 1 })
      (Function.update held (.app l) { held (.app l) with s := (held (.app l)).s + 1 }) o := by
  have hu : unit held o l.nodeId = 0 := unit_eq_zero hz ho
  have hu' : unit (Function.update held (.app l) { held (.app l) with s := (held (.app l)).s + 1 })
      o l.nodeId = 1 := by
    refine unit_eq_one (.inl ?_)
    rw [onNode_gainS, hz]
    decide
  refine h.stepS (by rfl) (by rfl) (fun _ _ => Iff.rfl) rfl rfl (w := a.lockWord - 1)
    (v := a.reserveLockOwner) ?_ (by omega) h.free h.reserved (fun e => absurd e ho) fun n h32 => ?_
  · rw [hu, hu']
    ring
  · refine (bits_setBit hn n).trans ?_
    split
    · rename_i hne
      subst hne
      rw [hu', decide_eq_true rfl]
    · rfl

/-- The last S of a node leaves its unit as a token. -/
theorem GlobOk.delayS (h : GlobOk a held none) (hn : l.nodeId.val < ubMaxNodes)
    (hs : 0 < (held (.app l)).s) (hone : onNode l.nodeId nS held = 1) :
    GlobOk { a with reserveLockOwner := makeGlobalOwner l }
      (Function.update held (.app l) { held (.app l) with s := (held (.app l)).s - 1 })
      (some (l.nodeId, .s)) := by
  have hu : unit held none l.nodeId = 1 := unit_eq_one (.inl (by rw [hone]; decide))
  have hu' : unit (Function.update held (.app l) { held (.app l) with s := (held (.app l)).s - 1 })
      (some (l.nodeId, .s)) l.nodeId = 1 := unit_eq_one (.inr rfl)
  refine h.stepS (by rfl) (by rfl) (fun n hne => ?_) (by rfl) (by rfl) (w := a.lockWord)
    (v := makeGlobalOwner l)
    (b := a.sharedOwnerBitmap) ?_ h.nonneg (by simp) (fun n mode e => ?_) (fun _ => ?_) fun n h32 => ?_
  · simp [Ne.symm hne]
  · rw [hu, hu']
    ring
  · cases e
    exact ⟨by decide, onNode_self hn⟩
  · rw [onNode_loseS hs, hone]
    rfl
  · split
    · rename_i hne
      subst hne
      rw [h.bits _ h32, hu, hu']
    · rfl

/-- The last S of a node gives its unit back. -/
theorem GlobOk.dropS (h : GlobOk a held o) (hn : l.nodeId.val < ubMaxNodes)
    (ho : o ≠ some (l.nodeId, .s)) (hs : 0 < (held (.app l)).s)
    (hone : onNode l.nodeId nS held = 1) :
    GlobOk (Alone.clearBit l.nodeId { a with lockWord := a.lockWord + 1 })
      (Function.update held (.app l) { held (.app l) with s := (held (.app l)).s - 1 }) o := by
  have hu : unit held o l.nodeId = 1 := unit_eq_one (.inl (by rw [hone]; decide))
  have hu' : unit (Function.update held (.app l) { held (.app l) with s := (held (.app l)).s - 1 })
      o l.nodeId = 0 := by
    refine unit_eq_zero ?_ ho
    rw [onNode_loseS hs, hone]
    rfl
  have hnonneg := h.nonneg
  refine h.stepS (by rfl) (by rfl) (fun _ _ => Iff.rfl) rfl rfl (w := a.lockWord + 1)
    (v := a.reserveLockOwner) ?_ (by omega) h.free h.reserved (fun e => absurd e ho) fun n h32 => ?_
  · rw [hu, hu']
    ring
  · refine (bits_clearBit hn n).trans ?_
    split
    · rename_i hne
      subst hne
      rw [hu', decide_eq_false (by decide)]
    · rfl

/-- No thread holds X. -/
theorem x_zero_of_total (h : total nX held = 0) (i : Location) : (held (.app i)).x = 0 := by
  have hle := le_total (γ := held) nX_nonneg i
  simp only [nX] at hle h
  omega

theorem sx_zero_of_total (h : total nSx held = 0) (i : Location) : (held (.app i)).sx = 0 := by
  have hle := le_total (γ := held) nSx_nonneg i
  simp only [nSx] at hle h
  omega

/-- A token is given back. -/
theorem GlobOk.giveBack {n : NodeId} (h : GlobOk a held (some (n, mode))) (hn : n.val < ubMaxNodes) :
    GlobOk (Alone.giveBack n a mode) held none := by
  have hheld : Function.update held (.app ⟨0, n⟩) (held (.app ⟨0, n⟩)) = held :=
    Function.update_eq_self _ _
  rw [← hheld]
  have hnonneg := h.nonneg
  cases mode with
  | s =>
    have hz := h.apart n rfl
    have hu : unit held (some (n, .s)) n = 1 := unit_eq_one (.inr rfl)
    have hu' : unit held none n = 0 := unit_eq_zero hz (by simp)
    refine h.stepS (l := ⟨0, n⟩) rfl rfl (fun i hne => ?_) (by rfl) (by rfl) (w := a.lockWord + 1)
      (v := lockInvalidOwner) ?_ (by omega) (fun _ => rfl) (by simp) (by simp) fun i h32 => ?_
    · simp [Ne.symm hne]
    · rw [hheld, hu, hu']
      ring
    · refine (bits_clearBit (l := ⟨0, n⟩) hn i).trans ?_
      rw [hheld]
      split
      · rename_i hne
        subst hne
        rw [hu', decide_eq_false (by decide)]
      · rfl
  | sx =>
    have hone := h.oneSx
    have hsx : total nSx held = 0 := by
      have := total_nonneg (γ := held) nSx_nonneg
      simp only [kept, if_true] at hone
      omega
    refine h.stepX (l := ⟨0, n⟩) rfl (fun _ => by simp) (by rfl) (by rfl) ?_ ?_ ?_ ?_ ?_ (fun _ => rfl)
      (by simp)
    · simp [Alone.giveBack, kept]
    · simp only [Alone.giveBack, xLockHalfDecr]
      omega
    · simp [hsx, kept]
    · rw [hheld]
      exact h.ownX
    · rw [hheld]
      intro i hi
      rw [sx_zero_of_total hsx] at hi
      exact absurd hi (lt_irrefl 0)
  | x =>
    have hk : kept .x (some (n, .x)) = 1 := rfl
    have hx := total_nonneg (γ := held) nX_nonneg
    obtain ⟨hw, h1, h2, -⟩ := h.alone_of_x (by omega)
    have hx0 : total nX held = 0 := by omega
    refine h.stepX (l := ⟨0, n⟩) rfl (fun _ => by simp) (by rfl) (by rfl) ?_ ?_ ?_ ?_ ?_ (fun _ => rfl)
      (by simp)
    · simp [Alone.giveBack, kept, hw]
    · simp [Alone.giveBack, xLockDecr]
    · have h3 := h.oneSx
      simp only [kept] at h3 ⊢
      simpa using h3
    · rw [hheld]
      intro i hi
      rw [x_zero_of_total hx0] at hi
      exact absurd hi (lt_irrefl 0)
    · rw [hheld]
      exact h.ownSx
  | i => exact absurd rfl (h.reserved n .i rfl).1

/-- After one thread takes what nobody holds it is the only one. -/
theorem owner_gain {f : Holds → ℕ} (h : ∀ i, f (held (.app i)) = 0) (i : Location)
    (hi : 0 < f (Function.update held (.app l) h' (.app i))) :
    makeGlobalOwner l = makeGlobalOwner i := by
  by_cases hne : i = l
  · rw [hne]
  · rw [Function.update_of_ne (fun e => hne (Actor.app.inj e)), h] at hi
    exact absurd hi (lt_irrefl 0)

/-- When the only X goes, nobody holds X. -/
theorem noX_lose (h : total nX held = 1) (hx : 0 < (held (.app l)).x) (i : Location) :
    (Function.update held (.app l)
      { held (.app l) with x := (held (.app l)).x - 1 } (.app i)).x = 0 := by
  refine x_zero_of_total ?_ i
  have hle := le_total (γ := held) nX_nonneg l
  rw [total_update]
  simp only [nX] at h hle ⊢
  omega

theorem noSx_lose (h : total nSx held = 1) (hsx : 0 < (held (.app l)).sx) (i : Location) :
    (Function.update held (.app l)
      { held (.app l) with sx := (held (.app l)).sx - 1 } (.app i)).sx = 0 := by
  refine sx_zero_of_total ?_ i
  have hle := le_total (γ := held) nSx_nonneg l
  rw [total_update]
  simp only [nSx] at h hle ⊢
  omega

/-- X takes the full word. -/
theorem GlobOk.takeX (h : GlobOk a held o) (hw : a.lockWord = xLockDecr) :
    GlobOk { a with lockWord := 0, lockOwnerX := makeGlobalOwner l, xRecursive := 1 }
      (Function.update held (.app l) { held (.app l) with x := (held (.app l)).x + 1 }) o := by
  obtain ⟨hx, -, -, -⟩ := h.none_of_full hw
  have hone := h.oneSx
  refine h.stepX (by rfl) (fun _ => Iff.rfl) (by rfl) (by rfl) ?_ (by rfl) ?_
    (owner_gain (x_zero_of_total hx)) (owner_keep h.ownSx rfl) h.free h.reserved
  · simp [nX, nSx, hw]
  · simp only [nSx] at hone ⊢
    omega

/-- X finds its word in the token. -/
theorem GlobOk.inheritX (h : GlobOk a held (some (l.nodeId, .x))) :
    GlobOk
      { a with
        reserveLockOwner := lockInvalidOwner, lockOwnerX := makeGlobalOwner l, xRecursive := 1 }
      (Function.update held (.app l) { held (.app l) with x := (held (.app l)).x + 1 }) none := by
  have hk : kept .x (some (l.nodeId, .x)) = 1 := rfl
  have hnonneg := total_nonneg (γ := held) nX_nonneg
  obtain ⟨-, h1, -, -⟩ := h.alone_of_x (by omega)
  have hx : total nX held = 0 := by omega
  have hone := h.oneSx
  refine h.stepX (by rfl) (fun _ => by simp) (by rfl) (by rfl) ?_ h.nonneg ?_
    (owner_gain (x_zero_of_total hx)) (owner_keep h.ownSx rfl) (fun _ => rfl) (by simp)
  · simp [nX, nSx, kept]
  · simp only [nSx, kept] at hone ⊢
    simpa using hone

/-- What a thread that holds X knows. -/
theorem GlobOk.sole_x (h : GlobOk a held o) (hx : 0 < (held (.app l)).x) :
    (held (.app l)).x = 1 ∧ a.lockWord = 0 ∧ total nX held = 1 ∧ total nSx held = 0 ∧
      ∑ n, unit held o n = 0 := by
  obtain rfl := h.token_of_x hx
  have hle := le_total (γ := held) nX_nonneg l
  have hk : kept .x none = 0 := rfl
  have hk' : kept .sx none = 0 := rfl
  have hone : (1 : ℤ) ≤ nX (held (.app l)) := by
    unfold nX
    omega
  obtain ⟨hw, h1, h2, h3⟩ := h.alone_of_x (by omega)
  refine ⟨?_, hw, by omega, by omega, h3⟩
  have : nX (held (.app l)) = 1 := by omega
  unfold nX at this
  omega

/-- X gives the word back. -/
theorem GlobOk.dropX (h : GlobOk a held o) (hx : 0 < (held (.app l)).x) :
    GlobOk (Alone.freeX a)
      (Function.update held (.app l) { held (.app l) with x := (held (.app l)).x - 1 }) o := by
  obtain ⟨h1, hw, hone, hsx, -⟩ := h.sole_x hx
  have hsx1 := h.oneSx
  refine h.stepX (by rfl) (fun _ => Iff.rfl) (by rfl) (by rfl) ?_ (Int.natCast_nonneg 65536) ?_
    (fun i hi => ?_) (owner_keep h.ownSx rfl) h.free h.reserved
  · simp [Alone.freeX, nX, nSx, hw, h1]
  · simp only [nSx] at hsx1 ⊢
    omega
  · rw [noX_lose hone hx] at hi
    exact absurd hi (lt_irrefl 0)

/-- X leaves the word as a token. -/
theorem GlobOk.delayX (h : GlobOk a held none) (hn : l.nodeId.val < ubMaxNodes)
    (hx : 0 < (held (.app l)).x) :
    GlobOk { a with reserveLockOwner := makeGlobalOwner l }
      (Function.update held (.app l) { held (.app l) with x := (held (.app l)).x - 1 })
      (some (l.nodeId, .x)) := by
  obtain ⟨h1, hw, hone, hsx, -⟩ := h.sole_x hx
  refine h.stepX (by rfl) (fun _ => by simp) (by rfl) (by rfl) ?_ h.nonneg ?_ (fun i hi => ?_)
    (owner_keep h.ownSx rfl) (by simp) (fun n mode e => ?_)
  · simp [nX, nSx, kept, h1]
  · rw [hsx]
    simp [nSx, kept]
  · rw [noX_lose hone hx] at hi
    exact absurd hi (lt_irrefl 0)
  · cases e
    exact ⟨by decide, onNode_self hn⟩

/-- More than half of the word means that nobody has SX or X. -/
theorem GlobOk.none_of_half (h : GlobOk a held o) (hw : xLockHalfDecr < a.lockWord) :
    total nX held = 0 ∧ total nSx held = 0 ∧ kept .x o = 0 ∧ kept .sx o = 0 := by
  have h2 := total_nonneg (γ := held) nX_nonneg
  have h3 := kept_nonneg .x o
  have h4 := total_nonneg (γ := held) nSx_nonneg
  have h5 := kept_nonneg .sx o
  have h6 := h.word
  have h7 := sum_unit_nonneg held o
  simp only [xLockDecr, xLockHalfDecr] at h6 hw
  refine ⟨by omega, by omega, by omega, by omega⟩

/-- SX takes half of the word. -/
theorem GlobOk.takeSx (h : GlobOk a held o) (hw : xLockHalfDecr < a.lockWord) :
    GlobOk
      { a with
        lockWord := a.lockWord - xLockHalfDecr, lockOwnerSx := makeGlobalOwner l, sxRecursive := 1 }
      (Function.update held (.app l) { held (.app l) with sx := (held (.app l)).sx + 1 }) o := by
  obtain ⟨-, hsx, -, hk⟩ := h.none_of_half hw
  refine h.stepX (by rfl) (fun _ => Iff.rfl) (by rfl) (by rfl) ?_ (sub_nonneg.mpr hw.le) ?_
    (owner_keep h.ownX rfl) (owner_gain (sx_zero_of_total hsx)) h.free h.reserved
  · simp [nX, nSx]
  · rw [hsx, hk]
    simp [nSx]

/-- SX finds its half in the token. -/
theorem GlobOk.inheritSx (h : GlobOk a held (some (l.nodeId, .sx))) :
    GlobOk
      { a with
        reserveLockOwner := lockInvalidOwner, lockOwnerSx := makeGlobalOwner l, sxRecursive := 1 }
      (Function.update held (.app l) { held (.app l) with sx := (held (.app l)).sx + 1 }) none := by
  have hk : kept .sx (some (l.nodeId, .sx)) = 1 := rfl
  have hnonneg := total_nonneg (γ := held) nSx_nonneg
  have hone := h.oneSx
  have hsx : total nSx held = 0 := by omega
  refine h.stepX (by rfl) (fun _ => by simp) (by rfl) (by rfl) ?_ h.nonneg ?_
    (owner_keep h.ownX rfl) (owner_gain (sx_zero_of_total hsx)) (fun _ => rfl) (by simp)
  · simp [nX, nSx, kept]
  · rw [hsx]
    simp [nSx, kept]

/-- What a thread that holds SX knows. -/
theorem GlobOk.sole_sx (h : GlobOk a held o) (hsx : 0 < (held (.app l)).sx) :
    (held (.app l)).sx = 1 ∧ total nSx held = 1 ∧ kept .sx o = 0 ∧ total nX held = 0 := by
  have hle := le_total (γ := held) nSx_nonneg l
  have hk := kept_nonneg .sx o
  have hone := h.oneSx
  have hpos : (1 : ℤ) ≤ nSx (held (.app l)) := by
    unfold nSx
    omega
  refine ⟨?_, by omega, by omega, ?_⟩
  · have : nSx (held (.app l)) = 1 := by omega
    unfold nSx at this
    omega
  · by_contra hx
    have h2 := total_nonneg (γ := held) nX_nonneg
    have h3 := kept_nonneg .x o
    obtain ⟨-, -, h4, -⟩ := h.alone_of_x (by omega)
    omega

/-- SX gives its half back. -/
theorem GlobOk.dropSx (h : GlobOk a held o) (hsx : 0 < (held (.app l)).sx) :
    GlobOk (Alone.freeSx a)
      (Function.update held (.app l) { held (.app l) with sx := (held (.app l)).sx - 1 }) o := by
  obtain ⟨h1, hone, hk, -⟩ := h.sole_sx hsx
  have hnonneg := h.nonneg
  refine h.stepX (by rfl) (fun _ => Iff.rfl) (by rfl) (by rfl) ?_ ?_ ?_ (owner_keep h.ownX rfl)
    (fun i hi => ?_) h.free h.reserved
  · simp [Alone.freeSx, nX, nSx, h1]
  · simp only [Alone.freeSx, xLockHalfDecr]
    omega
  · rw [hone, hk]
    simp [nSx, h1]
  · rw [noSx_lose hone hsx] at hi
    exact absurd hi (lt_irrefl 0)

/-- SX leaves its half as a token. -/
theorem GlobOk.delaySx (h : GlobOk a held none) (hn : l.nodeId.val < ubMaxNodes)
    (hsx : 0 < (held (.app l)).sx) :
    GlobOk { a with reserveLockOwner := makeGlobalOwner l }
      (Function.update held (.app l) { held (.app l) with sx := (held (.app l)).sx - 1 })
      (some (l.nodeId, .sx)) := by
  obtain ⟨h1, hone, -, -⟩ := h.sole_sx hsx
  refine h.stepX (by rfl) (fun _ => by simp) (by rfl) (by rfl) ?_ h.nonneg ?_ (owner_keep h.ownX rfl)
    (fun i hi => ?_) (by simp) (fun n mode e => ?_)
  · simp [nX, nSx, kept, h1]
  · rw [hone]
    simp [nSx, kept, h1]
  · rw [noSx_lose hone hsx] at hi
    exact absurd hi (lt_irrefl 0)
  · cases e
    exact ⟨by decide, onNode_self hn⟩

end Moves

end Ledger

end UbsAtomic
