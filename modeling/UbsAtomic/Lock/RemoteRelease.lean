import UbsAtomic.Lock.Client

/-! A RELEASE message against a thread that locks again.

    With delayed release the global X outlives its holder: it is a token of the node, and a message
    thread may be half way through giving it back. At every moment the whole of `lock_word` is in
    one place.

        free ──CAS──▶ thread ──unlock, delayed──▶ token ──lock_x──▶ thread
          ▲             │                           │ exchange by the message thread
          └──release────┘                           ▼
          ▲                                       loose ──lock_x of the recorded owner──▶ loose
          └──delay_unlock── handler ◀──not held────┘ └──held──▶ loose for good

    A loose X belongs to nobody, yet `lock_owner_x` still names the last holder, and `lock_x` takes
    that as recursion. This is safe as long as the message thread has not decided to give X back. -/

namespace UbsAtomic

open Conc Conc.Prog

namespace RemoteRelease

/-- Where a thread stands, as far as X is concerned. -/
inductive Phase where
  /-- not in the local lock; a message thread with nothing in hand -/
  | out
  /-- the local word is taken, `lock_x_owner_` is 0 -/
  | word
  /-- `lock_x_owner_` is the thread, the local depth may be anything -/
  | named
  /-- the local lock is taken -/
  | inside
  /-- and the node has no token -/
  | checked
  /-- `lock_word` is taken, `lock_owner_x` is not written yet -/
  | taken
  /-- the token is inherited, the reservation still stands -/
  | heir
  /-- the token is inherited, the reservation is cleared -/
  | cleared
  /-- `lock_owner_x` is the thread -/
  | signed
  /-- and the depth is 1 -/
  | own
  /-- the reservation is made, the token is not written yet -/
  | kept
  /-- the depth is popped -/
  | popped
  /-- `lock_owner_x` is erased -/
  | erased
  /-- the thread found its own identity in `lock_owner_x` -/
  | relock
  /-- and raised the depth to 2 -/
  | again
  /-- a message thread took the token and has not looked at the local lock -/
  | took
  /-- it found the local lock free and is about to clear the reservation -/
  | freeing (n : NodeId)
  /-- it is about to erase `lock_owner_x` -/
  | disowning (n : NodeId)
  /-- it is about to fill `lock_word` -/
  | giving
  deriving DecidableEq

/-- Where X is. -/
inductive Own where
  | free
  | thread (l : Location)
  | token (n : NodeId)
  /-- out of the token; `k` is the message thread that took it and has not looked yet -/
  | loose (n : NodeId) (k : Option ℕ)
  | handler (n : NodeId) (k : ℕ)
  deriving DecidableEq

namespace Phase

/-- The thread has X. -/
def Global : Phase → Prop
  | taken | heir | cleared | signed | own | kept | popped | erased => True
  | _ => False

/-- The thread uses a loose X. -/
def Again : Phase → Prop
  | relock | again => True
  | _ => False

/-- The message thread gives X of node `n` back. -/
def Frees (n : NodeId) : Phase → Prop
  | freeing m | disowning m => m = n
  | giving => True
  | _ => False

/-- The phases of an application thread without X. -/
def Local : Phase → Prop
  | out | word | named | inside | checked => True
  | _ => False

/-- What the local lock says of the thread inside it. -/
def Names (l : Location) (k : LocalLock) : Phase → Prop
  | word => k.lockXOwner = 0
  | named => k.lockXOwner = l.tid
  | _ => k.lockXOwner = l.tid ∧ k.xRecursive = 1

/-- The thread has taken the local lock completely. -/
def Full : Phase → Prop
  | out | word | named | took | freeing _ | disowning _ | giving => False
  | _ => True

end Phase

/-- Owner, reservation and depth while thread `l` has X. -/
def Phase.Facts (l : Location) (k : UbRwLock) : Phase → Prop
  | taken | erased => k.lockOwnerX = lockInvalidOwner ∧ k.reserveLockOwner = lockInvalidOwner
  | heir => OnNode l.nodeId k.lockOwnerX ∧ Named k.reserveLockOwner
  | cleared => OnNode l.nodeId k.lockOwnerX ∧ k.reserveLockOwner = lockInvalidOwner
  | signed | popped => k.lockOwnerX = makeGlobalOwner l ∧ k.reserveLockOwner = lockInvalidOwner
  | own => k.lockOwnerX = makeGlobalOwner l ∧ k.reserveLockOwner = lockInvalidOwner ∧
      k.xRecursive = 1
  | kept => k.lockOwnerX = makeGlobalOwner l ∧ Named k.reserveLockOwner ∧ k.xRecursive = 1
  | _ => False

/-- Owner and reservation while a message thread of node `n` gives X back. -/
def Phase.FreeFacts (n : NodeId) (k : UbRwLock) : Phase → Prop
  | freeing _ => OnNode n k.lockOwnerX ∧ Named k.reserveLockOwner
  | disowning _ => OnNode n k.lockOwnerX ∧ k.reserveLockOwner = lockInvalidOwner
  | giving => k.lockOwnerX = lockInvalidOwner ∧ k.reserveLockOwner = lockInvalidOwner
  | _ => False

/-- The shared object for each place X can be in. -/
def Shared (k : UbRwLock) (γ : Actor → Phase) : Own → Prop
  | .free => k.lockWord = xLockDecr ∧ k.lockOwnerX = lockInvalidOwner ∧
      k.reserveLockOwner = lockInvalidOwner
  | .thread l => k.lockWord = 0 ∧ (γ (.app l)).Facts l k
  | .token n => k.lockWord = 0 ∧ OnNode n k.lockOwnerX ∧ Named k.reserveLockOwner ∧ k.xRecursive = 1
  | .loose n _ => k.lockWord = 0 ∧ Named k.reserveLockOwner ∧ n.val < ubMaxNodes ∧
      ∃ l : Location, l.nodeId = n ∧ k.lockOwnerX = makeGlobalOwner l ∧
        k.xRecursive = (if γ (.app l) = .again then 2 else 1) ∧ ∀ l', (γ (.app l')).Again → l' = l
  | .handler n i => k.lockWord = 0 ∧ (γ (.handler n i)).FreeFacts n k

/-- The phase of a thread fits the place X is in. -/
def Fits : Actor → Phase → Own → Prop
  | .app l, g, o => (g.Global ↔ o = .thread l) ∧ (g.Again → ∃ k, o = .loose l.nodeId k) ∧
      (g = .checked → o ≠ .token l.nodeId)
  | .handler n k, g, o => (g = .took ↔ o = .loose n (some k)) ∧ (g.Frees n ↔ o = .handler n k)

/-- The local lock of node `n` is free, or taken by one thread. -/
def LocalOk (k : LocalLock) (n : NodeId) (γ : Actor → Phase) : Prop :=
  (k.lockWord = .zero ∧ k.lockXOwner = 0 ∧ ∀ l : Location, l.nodeId = n → γ (.app l) = .out) ∨
  (k.lockWord = .xState ∧ ∃ l : Location, l.nodeId = n ∧ γ (.app l) ≠ .out ∧
    (γ (.app l)).Names l k ∧ ∀ l' : Location, l'.nodeId = n → l' ≠ l → γ (.app l') = .out)

structure Good (s : Mem) (γ : Actor → Phase) (o : Own) : Prop where
  created : ∀ n : NodeId, n.val < ubMaxNodes → s.registered n = true
  registry : ∀ n : NodeId, n.val < ubMaxNodes → s.shm.nodeRegistry n = ubLockAddr
  token : ∀ n, (s.ll n).localIsReserveLock = if o = .token n then .x else .i
  shared : Shared s.shm γ o
  fits : ∀ t, Fits t (γ t) o
  node : ∀ n, LocalOk (s.ll n) n γ

def Inv (s : Mem) (γ : Actor → Phase) : Prop := ∃ o, Good s γ o

/-- A message thread that gives X back stands before one of two labelled steps until the identity
    of the last holder is gone. -/
def Stands : Option Label → Phase → Prop
  | ℓ, .freeing n => ℓ = some (.delayReserve n)
  | ℓ, .disowning n => ℓ = some (.delayOwnerX n)
  | _, _ => True

/-- No recursive `lock_x` reads its own identity from `lock_owner_x` while a message thread of its
    node is between the check of the local lock and the store that erases that identity. -/
def RelocksApart (ℓ : Actor → Option Label) (_ : Actor) (e : Label) (s : Mem) : Prop :=
  ∀ l, e = .ownerLoadX true l → s.shm.lockOwnerX = makeGlobalOwner l → ∀ k,
    ℓ (.handler l.nodeId k) ≠ some (.delayReserve l.nodeId) ∧
      ℓ (.handler l.nodeId k) ≠ some (.delayOwnerX l.nodeId)

def outline : Outline Actor Mem Label Phase := ⟨Inv, Stands, RelocksApart, fun _ _ _ => True⟩

/-- With `h` the recursion flag under which a thread holds X, if it does. -/
def Rest : Actor → Option Bool → Phase → Prop
  | .app _, none, g => g = .out
  | .app _, some r, g => g = .own ∨ (g = .again ∧ r = true)
  | .handler _ _, h, g => h = none ∧ g = .out

def spec : Spec Actor Mem Label Op Result (Option Bool) Phase where
  toOutline := outline
  rest := Rest
  moves := fun t h _ g => h = none ∨ Rest t h g
  good := fun _ _ _ _ => True

/-! ### Steps that keep the invariant -/

/-- Nothing the invariant looks at changes. -/
abbrev SameX : Mem → Mem → Prop :=
  Kept (fun k => (k.nodeRegistry, k.lockWord, k.lockOwnerX, k.xRecursive, k.reserveLockOwner))
    fun k => (k.localIsReserveLock, k.lockWord, k.lockXOwner, k.xRecursive)

instance : View
    (fun k => (k.nodeRegistry, k.lockWord, k.lockOwnerX, k.xRecursive, k.reserveLockOwner))
    fun k : LocalLock => (k.localIsReserveLock, k.lockWord, k.lockXOwner, k.xRecursive) :=
  ⟨fun _ => rfl, fun _ => rfl⟩

theorem Phase.Names.same {l : Location} {k k' : LocalLock} {g : Phase} (h : g.Names l k)
    (ho : k'.lockXOwner = k.lockXOwner) (hr : k'.xRecursive = k.xRecursive) : g.Names l k' := by
  cases g <;> simp_all [Phase.Names]

theorem LocalOk.same {k k' : LocalLock} {n : NodeId} {γ : Actor → Phase} (h : LocalOk k n γ)
    (hw : k'.lockWord = k.lockWord) (ho : k'.lockXOwner = k.lockXOwner)
    (hr : k'.xRecursive = k.xRecursive) : LocalOk k' n γ := by
  rcases h with ⟨h1, h2, h3⟩ | ⟨h1, l, h2, h3, h4, h5⟩
  · exact .inl ⟨hw.trans h1, ho.trans h2, h3⟩
  · exact .inr ⟨hw.trans h1, l, h2, h3, h4.same ho hr, h5⟩

theorem Phase.Facts.same {l : Location} {k k' : UbRwLock} {g : Phase} (h : g.Facts l k)
    (ho : k'.lockOwnerX = k.lockOwnerX) (hr : k'.xRecursive = k.xRecursive)
    (hv : k'.reserveLockOwner = k.reserveLockOwner) : g.Facts l k' := by
  unfold Phase.Facts at *
  split <;> simp_all

theorem Phase.FreeFacts.same {n : NodeId} {k k' : UbRwLock} {g : Phase} (h : g.FreeFacts n k)
    (ho : k'.lockOwnerX = k.lockOwnerX) (hv : k'.reserveLockOwner = k.reserveLockOwner) :
    g.FreeFacts n k' := by
  cases g with
  | freeing m => exact ⟨ho ▸ h.1, hv ▸ h.2⟩
  | disowning m => exact ⟨ho ▸ h.1, hv.trans h.2⟩
  | giving => exact ⟨ho.trans h.1, hv.trans h.2⟩
  | _ => exact h.elim

theorem Shared.same {k k' : UbRwLock} {γ : Actor → Phase} {o : Own} (h : Shared k γ o)
    (hs : k'.lockWord = k.lockWord ∧ k'.lockOwnerX = k.lockOwnerX ∧ k'.xRecursive = k.xRecursive ∧
      k'.reserveLockOwner = k.reserveLockOwner) : Shared k' γ o := by
  obtain ⟨hw, ho, hr, hv⟩ := hs
  cases o with
  | thread l => exact ⟨hw.trans h.1, h.2.same ho hr hv⟩
  | handler n i => exact ⟨hw.trans h.1, h.2.same ho hv⟩
  | free => simpa [Shared, hw, ho, hv] using h
  | token n => simpa [Shared, hw, ho, hv, hr] using h
  | loose n i => simpa [Shared, hw, ho, hv, hr] using h

theorem Good.same {s s' : Mem} {γ : Actor → Phase} {o : Own} (h : Good s γ o) (hs : SameX s s') :
    Good s' γ o := by
  obtain ⟨hshm, hll, hreg⟩ := hs
  simp only [Prod.mk.injEq] at hshm hll
  exact ⟨hreg ▸ h.created, hshm.1 ▸ h.registry, fun n => (hll n).1.trans (h.token n),
    h.shared.same hshm.2, h.fits, fun n => (h.node n).same (hll n).2.1 (hll n).2.2.1 (hll n).2.2.2⟩

/-- A reservation is nobody's or that of a thread of an existing node. -/
theorem Good.reserved {s : Mem} {γ : Actor → Phase} {o : Own} (h : Good s γ o) :
    s.shm.reserveLockOwner = lockInvalidOwner ∨ Named s.shm.reserveLockOwner := by
  have hs := h.shared
  cases o with
  | free => exact .inl hs.2.2
  | token n => exact .inr hs.2.2.1
  | loose n k => exact .inr hs.2.1
  | thread l =>
    have hf := hs.2
    cases hγ : γ (.app l) <;> rw [hγ] at hf
    case heir => exact .inr hf.2
    case kept => exact .inr hf.2.1
    case own => exact .inl hf.2.1
    case taken | cleared | signed | popped | erased => exact .inl hf.2
    all_goals exact hf.elim
  | handler n i =>
    have hf := hs.2
    cases hγ : γ (.handler n i) <;> rw [hγ] at hf
    case freeing => exact .inr hf.2
    case disowning | giving => exact .inl hf.2
    all_goals exact hf.elim

/-- X passes from `o` to `o'` in a step of `t`; nobody else notices. -/
theorem Good.pass {s s' : Mem} {γ : Actor → Phase} {o o' : Own} {t : Actor} {g' : Phase}
    (h : Good s γ o) (hc : s'.registered = s.registered)
    (hr : s'.shm.nodeRegistry = s.shm.nodeRegistry)
    (ht : ∀ n, (s'.ll n).localIsReserveLock = if o' = .token n then .x else .i)
    (hs : Shared s'.shm (Function.update γ t g') o')
    (hu : ∀ u, u ≠ t → Fits u (γ u) o → Fits u (γ u) o') (hf : Fits t g' o')
    (hl : ∀ n, LocalOk (s'.ll n) n (Function.update γ t g')) :
    Good s' (Function.update γ t g') o' where
  created := by rw [hc]; exact h.created
  registry := by rw [hr]; exact h.registry
  token := ht
  shared := hs
  fits := fun u => by
    by_cases hut : u = t
    · subst hut
      simpa using hf
    · simpa [hut] using hu u hut (h.fits u)
  node := hl

/-! #### In the local lock -/

theorem Phase.Local.not_global {g : Phase} (h : g.Local) : ¬ g.Global := by
  cases g <;> first | exact h.elim | exact fun h' => h'

theorem Phase.Local.not_again {g : Phase} (h : g.Local) : ¬ g.Again := by
  cases g <;> first | exact h.elim | exact fun h' => h'

theorem Phase.Full.names {g g' : Phase} {l : Location} {k : LocalLock} (h : g.Full) (h' : g'.Full)
    (hn : g.Names l k) : g'.Names l k := by
  have hk : k.lockXOwner = l.tid ∧ k.xRecursive = 1 := by
    cases g <;> first | exact h.elim | exact hn
  cases g' <;> first | exact h'.elim | exact hk

theorem Shared.local_step {k : UbRwLock} {γ : Actor → Phase} {o : Own} {l : Location}
    {g' : Phase} (h : Shared k γ o) (hg : (γ (.app l)).Local) (hg' : g'.Local)
    (ho : o ≠ .thread l) : Shared k (Function.update γ (.app l) g') o := by
  cases o with
  | free => exact h
  | token n => exact h
  | thread l' =>
    have hne : l' ≠ l := fun e => ho (e ▸ rfl)
    simpa [Shared, hne] using h
  | handler n i => simpa [Shared] using h
  | loose n i =>
    obtain ⟨hw, hv, hn, l₀, hl₀, hx, hr, hall⟩ := h
    refine ⟨hw, hv, hn, l₀, hl₀, hx, ?_, fun l' ha => ?_⟩
    · by_cases hl : l₀ = l
      · subst hl
        have h1 : γ (.app l₀) ≠ .again := fun e => hg.not_again (e ▸ trivial)
        have h2 : g' ≠ .again := fun e => hg'.not_again (e ▸ trivial)
        simpa [h1, h2] using hr
      · simpa [hl] using hr
    · by_cases hl : l' = l
      · subst hl
        exact absurd (by simpa using ha) hg'.not_again
      · exact hall l' (by simpa [hl] using ha)

theorem LocalOk.other {k : LocalLock} {n : NodeId} {γ : Actor → Phase} {l : Location} {g' : Phase}
    (h : LocalOk k n γ) (hn : l.nodeId ≠ n) : LocalOk k n (Function.update γ (.app l) g') := by
  have hu : ∀ l' : Location, l'.nodeId = n → Function.update γ (.app l) g' (.app l') = γ (.app l') :=
    fun l' hl' => Function.update_of_ne (fun e => hn (by cases e; exact hl')) _ _
  rcases h with ⟨h1, h2, h3⟩ | ⟨h1, l₀, h2, h3, h4, h5⟩
  · exact .inl ⟨h1, h2, fun l' hl' => (hu l' hl').trans (h3 l' hl')⟩
  · refine .inr ⟨h1, l₀, h2, ?_, ?_, fun l' hl' hne => (hu l' hl').trans (h5 l' hl' hne)⟩ <;>
      rw [hu l₀ h2] <;> assumption

theorem LocalOk.handler {k : LocalLock} {n m : NodeId} {i : ℕ} {γ : Actor → Phase} {g' : Phase}
    (h : LocalOk k n γ) : LocalOk k n (Function.update γ (.handler m i) g') := by
  simpa [LocalOk] using h

/-- The thread that is in the local lock is there alone. -/
theorem LocalOk.inside {k : LocalLock} {γ : Actor → Phase} {l : Location}
    (h : LocalOk k l.nodeId γ) (hg : γ (.app l) ≠ .out) :
    k.lockWord = .xState ∧ (γ (.app l)).Names l k ∧
      ∀ l' : Location, l'.nodeId = l.nodeId → l' ≠ l → γ (.app l') = .out := by
  rcases h with ⟨-, -, h3⟩ | ⟨h1, l₀, h2, h3, h4, h5⟩
  · exact absurd (h3 l rfl) hg
  · by_cases hl : l = l₀
    · subst hl
      exact ⟨h1, h4, h5⟩
    · exact absurd (h5 l rfl hl) hg

/-- The thread in the local lock moves on. -/
theorem LocalOk.step {k k' : LocalLock} {γ : Actor → Phase} {l : Location} {g' : Phase}
    (h : LocalOk k l.nodeId γ) (hg : γ (.app l) ≠ .out) (hw : k'.lockWord = k.lockWord)
    (hg' : g' ≠ .out) (hn : g'.Names l k') :
    LocalOk k' l.nodeId (Function.update γ (.app l) g') := by
  obtain ⟨h1, -, h3⟩ := h.inside hg
  refine .inr ⟨hw.trans h1, l, rfl, by simpa using hg', by simpa using hn, fun l' hl' hne => ?_⟩
  simpa [hne] using h3 l' hl' hne

/-- Node by node, a step that leaves the local words, owners and depths alone. -/
theorem Good.node_full {s s' : Mem} {γ : Actor → Phase} {o : Own} {l : Location} {g g' : Phase}
    (h : Good s γ o) (hg : γ (.app l) = g) (hf : g.Full) (hf' : g'.Full)
    (hs : ∀ n, (s'.ll n).lockWord = (s.ll n).lockWord ∧ (s'.ll n).lockXOwner = (s.ll n).lockXOwner ∧
      (s'.ll n).xRecursive = (s.ll n).xRecursive) (n : NodeId) :
    LocalOk (s'.ll n) n (Function.update γ (.app l) g') := by
  have hsame : LocalOk (s'.ll n) n γ := (h.node n).same (hs n).1 (hs n).2.1 (hs n).2.2
  by_cases hn : l.nodeId = n
  · subst hn
    have hout : ∀ {g₀ : Phase}, g₀.Full → g₀ ≠ .out := by rintro _ h' rfl; exact h'
    subst hg
    exact hsame.step (hout hf) rfl (hout hf') (hf.names hf' (hsame.inside (hout hf)).2.1)
  · exact hsame.other hn

/-- A step inside the local lock that X does not notice. -/
theorem Good.local_step {s : Mem} {γ : Actor → Phase} {o : Own} {l : Location} {g g' : Phase}
    {k' : LocalLock} (h : Good s γ o) (hg : γ (.app l) = g) (hl : g.Local) (hl' : g'.Local)
    (hc : g' = .checked → o ≠ .token l.nodeId)
    (ht : k'.localIsReserveLock = (s.ll l.nodeId).localIsReserveLock)
    (hk : LocalOk k' l.nodeId (Function.update γ (.app l) g')) :
    Good { s with ll := Function.update s.ll l.nodeId k' } (Function.update γ (.app l) g') o := by
  subst hg
  have hfit := h.fits (.app l)
  have ho : o ≠ .thread l := fun e => hl.not_global (hfit.1.mpr e)
  refine h.pass rfl rfl (fun n => ?_) (h.shared.local_step hl hl' ho) (fun _ _ hf => hf)
    ⟨⟨fun hg' => absurd hg' hl'.not_global, fun e => absurd e ho⟩,
      fun ha => absurd ha hl'.not_again, hc⟩ fun n => ?_
  · by_cases hn : n = l.nodeId
    · subst hn
      simpa [ht] using h.token l.nodeId
    · simpa [hn] using h.token n
  · by_cases hn : n = l.nodeId
    · subst hn
      simpa using hk
    · simpa [hn] using (h.node n).other (Ne.symm hn)

/-! #### With X in hand -/

theorem Phase.Global.full {g : Phase} (h : g.Global) : g.Full := by
  cases g <;> first | exact h.elim | trivial

theorem Phase.Global.stands {g : Phase} (h : g.Global) (ℓ : Option Label) : Stands ℓ g := by
  cases g <;> first | exact h.elim | trivial

/-- A step of the thread that has X on the shared object. -/
theorem Good.thread_step {s s' : Mem} {γ : Actor → Phase} {o : Own} {l : Location} {g g' : Phase}
    (h : Good s γ o) (hg : γ (.app l) = g) (hG : g.Global) (hG' : g'.Global)
    (hll : s'.ll = s.ll) (hc : s'.registered = s.registered)
    (hr : s'.shm.nodeRegistry = s.shm.nodeRegistry) (hw : s'.shm.lockWord = s.shm.lockWord)
    (hf : g.Facts l s.shm → g'.Facts l s'.shm) : Good s' (Function.update γ (.app l) g') o := by
  subst hg
  obtain rfl : o = .thread l := (h.fits (.app l)).1.mp hG
  refine h.pass hc hr (fun n => by rw [hll]; exact h.token n) ⟨hw.trans h.shared.1, ?_⟩
    (fun _ _ hu => hu) ⟨⟨fun _ => rfl, fun _ => hG'⟩, fun ha => ?_, fun _ => nofun⟩
    (h.node_full rfl hG.full hG'.full fun n => by rw [hll]; exact ⟨rfl, rfl, rfl⟩)
  · rw [Function.update_self]
    exact hf h.shared.2
  · cases g' <;> first | exact ha.elim | exact hG'.elim

/-- The local words, owners and depths when only the token of one node is written. -/
theorem token_keeps (s : Mem) (n : NodeId) (m : Mode) (i : NodeId) :
    let s' := (Local.localIsReserveLock n).set m s
    (s'.ll i).lockWord = (s.ll i).lockWord ∧ (s'.ll i).lockXOwner = (s.ll i).lockXOwner ∧
      (s'.ll i).xRecursive = (s.ll i).xRecursive := by
  by_cases hi : i = n
  · subst hi
    simp [Local.localIsReserveLock, Local.field]
  · simp [Local.localIsReserveLock, Local.field, hi]

theorem token_set {s : Mem} {γ : Actor → Phase} {o o' : Own} (h : Good s γ o) {n : NodeId}
    {m : Mode} (hm : m = if o' = .token n then .x else .i)
    (ho : ∀ i, i ≠ n → (o' = .token i ↔ o = .token i)) (i : NodeId) :
    (((Local.localIsReserveLock n).set m s).ll i).localIsReserveLock
      = if o' = .token i then .x else .i := by
  by_cases hi : i = n
  · subst hi
    simpa [Local.localIsReserveLock, Local.field] using hm
  · simpa [Local.localIsReserveLock, Local.field, hi, ho i hi] using h.token i

/-- `lock_word` is taken. -/
theorem Good.take {s : Mem} {γ : Actor → Phase} {l : Location} (h : Good s γ .free)
    (hg : γ (.app l) = .checked) :
    Good (Shm.lockWord.set 0 s) (Function.update γ (.app l) .taken) (.thread l) := by
  refine h.pass rfl rfl (fun n => by simpa [Shm.lockWord, shmField] using h.token n) ⟨rfl, ?_⟩
    (fun u hu hf => ?_)
    ⟨by simp [Phase.Global], by simp [Phase.Again], by simp⟩
    (h.node_full hg trivial trivial fun _ => ⟨rfl, rfl, rfl⟩)
  · rw [Function.update_self]
    exact h.shared.2
  · cases u with
    | app l' =>
      have hne : l ≠ l' := fun e => hu (e ▸ rfl)
      simpa [Fits, hne] using hf
    | handler n k => simpa [Fits] using hf

/-- The token of the node is inherited. -/
theorem Good.inherit {s : Mem} {γ : Actor → Phase} {l : Location} (h : Good s γ (.token l.nodeId))
    (hg : γ (.app l) = .inside) :
    Good ((Local.localIsReserveLock l.nodeId).set .i s) (Function.update γ (.app l) .heir)
      (.thread l) := by
  refine h.pass rfl rfl (token_set h rfl fun i hi => by simp [Ne.symm hi])
    ⟨h.shared.1, ?_⟩ (fun u hu hf => ?_) ⟨by simp [Phase.Global], by simp [Phase.Again], by simp⟩
    (h.node_full hg trivial trivial (token_keeps s _ _))
  · rw [Function.update_self]
    exact ⟨h.shared.2.1, h.shared.2.2.1⟩
  · cases u with
    | app l' =>
      have hne : l ≠ l' := fun e => hu (e ▸ rfl)
      obtain ⟨h1, h2, -⟩ := hf
      refine ⟨by simpa [hne] using h1, fun ha => ?_, fun _ => nofun⟩
      simpa using h2 ha
    | handler n k => simpa [Fits] using hf

/-- X is left behind as a token. -/
theorem Good.leave {s : Mem} {γ : Actor → Phase} {l : Location} (h : Good s γ (.thread l))
    (hn : l.nodeId.val < ubMaxNodes) (hg : γ (.app l) = .kept) :
    Good ((Local.localIsReserveLock l.nodeId).set .x s) (Function.update γ (.app l) .inside)
      (.token l.nodeId) := by
  obtain ⟨hw, hf⟩ := h.shared
  rw [hg] at hf
  refine h.pass rfl rfl (token_set h (by simp) fun i hi => by simp [Ne.symm hi])
    ⟨hw, hf.1 ▸ onNode_self hn, hf.2.1, hf.2.2⟩ (fun u hu hf => ?_)
    ⟨by simp [Phase.Global], by simp [Phase.Again], by simp⟩
    (h.node_full hg trivial trivial (token_keeps s _ _))
  cases u with
  | app l' =>
    have hne : l ≠ l' := fun e => hu (e ▸ rfl)
    obtain ⟨h1, h2, -⟩ := hf
    refine ⟨by simpa [hne] using h1, fun ha => by simpa using h2 ha, fun hch e => ?_⟩
    -- nobody else is in the local lock of this node
    obtain ⟨-, -, hall⟩ := (h.node l.nodeId).inside (by rw [hg]; decide)
    have := hall l' (Own.token.inj e).symm (Ne.symm hne)
    rw [hch] at this
    cases this
  | handler n k => simpa [Fits] using hf

/-- `lock_word` is given back by the thread. -/
theorem Good.release {s : Mem} {γ : Actor → Phase} {l : Location} (h : Good s γ (.thread l))
    (hg : γ (.app l) = .erased) :
    Good (Shm.lockWord.set xLockDecr s) (Function.update γ (.app l) .inside) .free := by
  have hf := h.shared.2
  rw [hg] at hf
  refine h.pass rfl rfl (fun n => by simpa [Shm.lockWord, shmField] using h.token n) ⟨rfl, hf⟩
    (fun u hu hf => ?_)
    ⟨by simp [Phase.Global], by simp [Phase.Again], by simp⟩
    (h.node_full hg trivial trivial fun _ => ⟨rfl, rfl, rfl⟩)
  cases u with
  | app l' =>
    have hne : l ≠ l' := fun e => hu (e ▸ rfl)
    simpa [Fits, hne] using hf
  | handler n k => simpa [Fits] using hf

/-! #### A loose X -/

/-- Only a loose X of the own node can carry the identity of a thread that does not have it. -/
theorem Good.loose_of_owner {s : Mem} {γ : Actor → Phase} {o : Own} {l : Location}
    {ℓ : Actor → Option Label} (h : Good s γ o) (hg : γ (.app l) = .checked)
    (hn : l.nodeId.val < ubMaxNodes) (hx : s.shm.lockOwnerX = makeGlobalOwner l)
    (hℓ : ∀ u, Stands (ℓ u) (γ u)) (hc : ∀ k,
      ℓ (.handler l.nodeId k) ≠ some (.delayReserve l.nodeId) ∧
        ℓ (.handler l.nodeId k) ≠ some (.delayOwnerX l.nodeId)) :
    ∃ k, o = .loose l.nodeId k := by
  have hvalid := (onNode_self hn).ne_invalid
  rw [← hx] at hvalid
  have hfit := h.fits (.app l)
  have hs := h.shared
  cases o with
  | free => exact absurd hs.2.1 hvalid
  | token n =>
    have hon := hs.2.1
    rw [hx] at hon
    exact absurd (congrArg Own.token hon.eq) (hfit.2.2 hg)
  | loose n k =>
    obtain ⟨-, -, -, l₀, hl₀, hx₀, -⟩ := hs
    obtain rfl := makeGlobalOwner_injective (hx₀.symm.trans hx)
    exact ⟨k, by rw [hl₀]⟩
  | thread l' =>
    exfalso
    have hne : l' ≠ l := by
      rintro rfl
      have := hfit.1.mpr rfl
      rw [hg] at this
      exact this
    have hout : l'.nodeId = l.nodeId → γ (.app l') = .out := fun e =>
      ((h.node l.nodeId).inside (by rw [hg]; decide)).2.2 l' e hne
    have hf := hs.2
    cases hγ : γ (.app l') <;> rw [hγ] at hf hout
    case taken | erased => exact hvalid hf.1
    case heir | cleared =>
      have hon := hf.1
      rw [hx] at hon
      cases hout hon.eq
    case signed | popped | own | kept => exact hne (makeGlobalOwner_injective (hf.1.symm.trans hx))
    all_goals exact hf
  | handler n i =>
    exfalso
    have hf := hs.2
    have hfree := (h.fits (.handler n i)).2.mpr rfl
    have hst := hℓ (.handler n i)
    cases hγ : γ (.handler n i) <;> rw [hγ] at hf hfree hst
    case freeing m =>
      obtain rfl : m = n := hfree
      have hon := hf.1
      rw [hx] at hon
      obtain rfl := hon.eq
      exact (hc i).1 hst
    case disowning m =>
      obtain rfl : m = n := hfree
      have hon := hf.1
      rw [hx] at hon
      obtain rfl := hon.eq
      exact (hc i).2 hst
    case giving => exact hvalid hf.1
    all_goals exact hf

/-- Steps of the recorded owner on a loose X: only the depth changes. -/
theorem Good.loose_step {s s' : Mem} {γ : Actor → Phase} {l : Location} {k : Option ℕ}
    {g g' : Phase} (h : Good s γ (.loose l.nodeId k)) (hg : γ (.app l) = g) (hf : g.Full)
    (hf' : g'.Full) (hG : ¬ g'.Global) (hll : s'.ll = s.ll) (hc : s'.registered = s.registered)
    (hr : s'.shm.nodeRegistry = s.shm.nodeRegistry) (hw : s'.shm.lockWord = s.shm.lockWord)
    (hv : s'.shm.reserveLockOwner = s.shm.reserveLockOwner)
    (ho : s'.shm.lockOwnerX = s.shm.lockOwnerX) (hx : s.shm.lockOwnerX = makeGlobalOwner l)
    (hd : s.shm.xRecursive = (if g = .again then 2 else 1) →
      s'.shm.xRecursive = if g' = .again then 2 else 1) :
    Good s' (Function.update γ (.app l) g') (.loose l.nodeId k) := by
  obtain ⟨hw₀, hv₀, hn, l₀, hl₀, hx₀, hr₀, hall⟩ := h.shared
  obtain rfl := makeGlobalOwner_injective (hx₀.symm.trans hx)
  refine h.pass hc hr (fun n => by rw [hll]; exact h.token n) ?_ (fun _ _ hu => hu)
    ⟨⟨fun h' => absurd h' hG, nofun⟩, fun _ => ⟨k, rfl⟩, fun _ => nofun⟩
    (h.node_full hg hf hf' fun n => by rw [hll]; exact ⟨rfl, rfl, rfl⟩)
  refine ⟨hw.trans hw₀, hv ▸ hv₀, hn, l₀, rfl, ho.trans hx₀, ?_, fun l' ha => ?_⟩
  · rw [Function.update_self]
    rw [hg] at hr₀
    exact hd hr₀
  · by_cases hl : l' = l₀
    · exact hl
    · exact hall l' (by simpa [hl] using ha)

/-- The depth of a loose X under its recorded owner. -/
theorem Good.loose_depth {s : Mem} {γ : Actor → Phase} {o : Own} {l : Location} (h : Good s γ o)
    (ha : (γ (.app l)).Again) :
    (∃ k, o = .loose l.nodeId k) ∧ s.shm.lockOwnerX = makeGlobalOwner l ∧
      s.shm.xRecursive = (if γ (.app l) = .again then 2 else 1) ∧
      Named s.shm.reserveLockOwner := by
  obtain ⟨k, rfl⟩ := (h.fits (.app l)).2.1 ha
  obtain ⟨-, hv, -, l₀, -, hx, hr, hall⟩ := h.shared
  obtain rfl := hall l ha
  exact ⟨⟨k, rfl⟩, hx, hr, hv⟩

/-! #### The message thread -/

/-- A message thread takes the token. -/
theorem Good.loosen {s : Mem} {γ : Actor → Phase} {n : NodeId} {k : ℕ} (h : Good s γ (.token n)) :
    Good ((Local.localIsReserveLock n).set .i s) (Function.update γ (.handler n k) .took)
      (.loose n (some k)) := by
  obtain ⟨hw, ⟨hn, t, hx⟩, hv, hr⟩ := h.shared
  have hnot : ∀ l, ¬ (γ (.app l)).Again := fun l ha => by
    obtain ⟨i, hi⟩ := (h.fits (.app l)).2.1 ha
    cases hi
  have hag : γ (.app ⟨t, n⟩) ≠ .again := fun e => hnot ⟨t, n⟩ (by rw [e]; trivial)
  refine h.pass rfl rfl (token_set h rfl fun i hi => by simp [Ne.symm hi])
    ⟨hw, hv, hn, ⟨t, n⟩, rfl, hx, ?_, fun l' ha => absurd (by simpa using ha) (hnot l')⟩
    (fun u hu hf => ?_) ⟨⟨fun _ => rfl, fun _ => rfl⟩, fun h' => h'.elim, nofun⟩
    fun i => ((h.node i).same (token_keeps s n .i i).1 (token_keeps s n .i i).2.1
      (token_keeps s n .i i).2.2).handler
  · rw [Function.update_of_ne (by simp), if_neg hag]
    exact hr
  · cases u with
    | app l =>
      obtain ⟨h1, h2, -⟩ := hf
      exact ⟨by simpa using h1, fun ha => absurd ha (hnot l), fun _ => nofun⟩
    | handler m i =>
      have hne : ¬ (n = m ∧ k = i) := fun e => hu (by rw [e.1, e.2])
      simpa [Fits, hne] using hf

/-- It finds the local lock taken and drops the token. -/
theorem Good.drop {s : Mem} {γ : Actor → Phase} {n : NodeId} {k : ℕ}
    (h : Good s γ (.loose n (some k))) :
    Good s (Function.update γ (.handler n k) .out) (.loose n none) := by
  refine h.pass rfl rfl (fun i => by simpa using h.token i) (by simpa [Shared] using h.shared)
    (fun u hu hf => ?_) ⟨⟨nofun, nofun⟩, fun h' => h'.elim, nofun⟩ fun i => (h.node i).handler
  cases u with
  | app l =>
    obtain ⟨h1, h2, -⟩ := hf
    refine ⟨by simpa using h1, fun ha => ?_, fun _ => nofun⟩
    obtain ⟨i, hi⟩ := h2 ha
    exact ⟨none, by rw [(Own.loose.inj hi).1]⟩
  | handler m i =>
    have hne : ¬ (n = m ∧ k = i) := fun e => hu (by rw [e.1, e.2])
    simpa [Fits, hne] using hf

/-- It finds the local lock free: nobody of the node uses the loose X. -/
theorem Good.begin {s : Mem} {γ : Actor → Phase} {n : NodeId} {k : ℕ}
    (h : Good s γ (.loose n (some k))) (hz : (s.ll n).lockWord = .zero) :
    Good s (Function.update γ (.handler n k) (.freeing n)) (.handler n k) := by
  obtain ⟨hw, hv, hn, l, hl, hx, -⟩ := h.shared
  have hout : ∀ l : Location, l.nodeId = n → γ (.app l) = .out := by
    rcases h.node n with ⟨-, -, h3⟩ | ⟨h1, -⟩
    · exact h3
    · exact absurd (h1.symm.trans hz) (by decide)
  refine h.pass rfl rfl (fun i => by simpa using h.token i) ⟨hw, ?_⟩ (fun u hu hf => ?_)
    ⟨⟨nofun, nofun⟩, fun _ => rfl, fun _ => rfl⟩ fun i => (h.node i).handler
  · rw [Function.update_self]
    exact ⟨hx ▸ hl ▸ onNode_self (hl ▸ hn), hv⟩
  · cases u with
    | app l' =>
      obtain ⟨h1, h2, -⟩ := hf
      refine ⟨by simpa using h1, fun ha => ?_, fun _ => nofun⟩
      obtain ⟨i, hi⟩ := h2 ha
      rw [hout l' (Own.loose.inj hi).1.symm] at ha
      exact ha.elim
    | handler m i =>
      have hne : ¬ (n = m ∧ k = i) := fun e => hu (by rw [e.1, e.2])
      simpa [Fits, hne] using hf

/-- It writes the reservation, the owner or the depth. -/
theorem Good.free_step {s s' : Mem} {γ : Actor → Phase} {o : Own} {n : NodeId} {k : ℕ}
    {g g' : Phase} (h : Good s γ o) (hg : γ (.handler n k) = g) (hF : g.Frees n) (hF' : g'.Frees n)
    (hll : s'.ll = s.ll) (hc : s'.registered = s.registered)
    (hr : s'.shm.nodeRegistry = s.shm.nodeRegistry) (hw : s'.shm.lockWord = s.shm.lockWord)
    (hf : g.FreeFacts n s.shm → g'.FreeFacts n s'.shm) :
    Good s' (Function.update γ (.handler n k) g') o := by
  subst hg
  obtain rfl : o = .handler n k := (h.fits (.handler n k)).2.mp hF
  refine h.pass hc hr (fun i => by rw [hll]; exact h.token i) ⟨hw.trans h.shared.1, ?_⟩
    (fun _ _ hu => hu) ⟨⟨fun e => ?_, nofun⟩, fun _ => rfl, fun _ => hF'⟩
    fun i => by rw [hll]; exact (h.node i).handler
  · rw [Function.update_self]
    exact hf h.shared.2
  · subst e
    exact hF'.elim

/-- It fills `lock_word`. -/
theorem Good.give {s : Mem} {γ : Actor → Phase} {o : Own} {n : NodeId} {k : ℕ} (h : Good s γ o)
    (hg : γ (.handler n k) = .giving) :
    Good (Shm.lockWord.set xLockDecr s) (Function.update γ (.handler n k) .out) .free := by
  obtain rfl : o = .handler n k := (h.fits (.handler n k)).2.mp (by rw [hg]; trivial)
  have hf := h.shared.2
  rw [hg] at hf
  refine h.pass rfl rfl (fun i => by simpa [Shm.lockWord, shmField] using h.token i) ⟨rfl, hf⟩
    (fun u hu hf => ?_)
    ⟨⟨nofun, nofun⟩, fun h' => h'.elim, nofun⟩ fun i => (h.node i).handler
  cases u with
  | app l =>
    obtain ⟨h1, h2, -⟩ := hf
    exact ⟨by simpa using h1, fun ha => by simpa using h2 ha, fun _ => nofun⟩
  | handler m i =>
    have hne : ¬ (n = m ∧ k = i) := fun e => hu (by rw [e.1, e.2])
    simpa [Fits, hne] using hf

end RemoteRelease

end UbsAtomic
