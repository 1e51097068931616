import UbsAtomic.Conc.Machine
import UbsAtomic.Ring.Layout

/-! Publishing the rings of a node, and finding them (`create_local_rings`, `publish_to_billboard`,
    `get_remote_ring`).

        node        construct rings ──▶ offsets := invalid ──▶ offsets := … ──▶ initialized := true
        others      lookup table? ──▶ initialized? ──▶ offset ──▶ remember it in the table

    A node may die at any step and be started again on the same memory, where its slot says what the
    last incarnation left. Addresses are offsets into the node's region. -/

namespace UbsAtomic

open Conc Conc.Prog

namespace Billboard

open Layout (RingDesc)

open UbsAtomic.Ring (ubCommOk ubCommErrPeerNotReady ubCommErrRingNotFound eInval maxPriorityLevels
  lockRingPriority)

/-! ### The memory -/

/-- The slot of the node on the billboard (`none` is the offset `UINT64_MAX`), and the entries for
    this node in the `remote_lookup_table_` of every other node. `incarnation` counts the starts of
    the node and `completed` has priority and address of every ring whose constructor has completed
    since the last one; no call reads these two. -/
structure Mem where
  initialized : Bool
  ringOffsets : ℕ → Option ℕ
  remoteLookupTable : ℕ → ℕ → Option ℕ
  incarnation : ℕ
  completed : List (ℕ × ℕ)

/-- The steps that are spoken about: the start of an incarnation, the first store of a new one into
    its slot, the steps of `get_remote_ring` after it has seen the flag, and its return. -/
inductive Label where
  | step
  | start
  | clear (priority : ℕ)
  | readOffset
  | remember
  | returns (addr : ℕ)
  deriving DecidableEq

instance : Inhabited Label := ⟨.step⟩

abbrev Call := Prog Mem Label

def initializedAt : Place Mem Bool := ⟨(·.initialized), fun v s => { s with initialized := v }⟩

def ringOffsetAt (p : ℕ) : Place Mem (Option ℕ) :=
  ⟨fun s => s.ringOffsets p, fun v s => { s with ringOffsets := Function.update s.ringOffsets p v }⟩

/-- The entry of node `r` for priority `p`. -/
def lookupAt (r p : ℕ) : Place Mem (Option ℕ) where
  get s := s.remoteLookupTable r p
  set v s :=
    let row := Function.update (s.remoteLookupTable r) p v
    { s with remoteLookupTable := Function.update s.remoteLookupTable r row }

/-! ### The node -/

/-- A store of incarnation `k`: a process that has died stores nothing any more. -/
def storeBy {α : Type} (k : ℕ) (e : Label) (place : Place Mem α) (v : α) : Call Unit :=
  .act e (fun s _ => if s.incarnation = k then some (place.set v s, ()) else none) .ret

/-- The process is started; the one before it is gone. -/
def start (k : ℕ) : Call Unit :=
  .act .start (fun s _ =>
    if s.incarnation + 1 = k then some ({ s with incarnation := k, completed := [] }, ())
    else none) .ret

def cachelineSize : ℕ := 64

/-- `sizeof(Entry)`. -/
def entryHeaderSize : ℕ := 8

/-- `GetDataOffset`. -/
def dataOffset : ℕ := 192

/-- The bytes of a ring, counted without wrapping. -/
def ringBytes (capacity maxMsgSize : ℕ) : ℕ :=
  let raw := entryHeaderSize + maxMsgSize
  let single := if raw % cachelineSize ≠ 0 then raw + (cachelineSize - raw % cachelineSize) else raw
  dataOffset + single * capacity

/-- `align_addr`. -/
def alignAddr (addr : ℕ) : ℕ := addr + (cachelineSize - addr % cachelineSize) % cachelineSize

def lockRingCapacity : ℕ := 4096
def lockRingMsgSize : ℕ := 128
def eexist : ℤ := -17

/-- The constructor of the ring at `off`: its stores begin, and it has completed. Nobody here reads
    what it stores. -/
def construct (k priority off : ℕ) : Call Unit := do
  .act .step (fun s _ => if s.incarnation = k then some (s, ()) else none) .ret
  .act .step (fun s _ =>
    if s.incarnation = k then some ({ s with completed := (priority, off) :: s.completed }, ())
    else none) .ret

/-- The loop over the user's rings, from address `addr`; `offsets` has what was created so far. -/
def createUserRings (k base : ℕ) : List RingDesc → ℕ → List (ℕ × ℕ) → Call (Except ℤ (List (ℕ × ℕ)))
  | [], _, offsets => return .ok offsets
  | desc :: descs, addr, offsets => do
    let priority := desc.priority.toNat
    if priority = 0 then
      return .error eInval
    if priority ≥ maxPriorityLevels then
      return .error eInval
    if (offsets.map Prod.fst).contains priority then
      return .error eexist
    let off := alignAddr addr - base
    construct k priority off
    createUserRings k base descs
      (alignAddr addr + ringBytes desc.ringCapacity desc.maxMsgSize)
      ((priority, off) :: offsets)

/-- `create_local_rings`, in the region that starts at `base`. -/
def createLocalRings (k base : ℕ) (descs : List RingDesc) : Call (Except ℤ (List (ℕ × ℕ))) := do
  let off := alignAddr base - base
  construct k lockRingPriority off
  createUserRings k base descs (alignAddr base + ringBytes lockRingCapacity lockRingMsgSize)
    [(lockRingPriority, off)]

def clearOffsets (k : ℕ) : List ℕ → Call Unit
  | [] => return ()
  | p :: ps => do
    storeBy k (.clear p) (ringOffsetAt p) none
    clearOffsets k ps

def writeOffsets (k : ℕ) (offsets : List (ℕ × ℕ)) : List ℕ → Call Unit
  | [] => return ()
  | p :: ps => do
    match offsets.lookup p with
    | none => writeOffsets k offsets ps
    | some off =>
      storeBy k .step (ringOffsetAt p) (some off)
      writeOffsets k offsets ps

/-- `publish_to_billboard`. -/
def publishToBillboard (k : ℕ) (offsets : List (ℕ × ℕ)) : Call Unit := do
  clearOffsets k (List.range maxPriorityLevels)
  writeOffsets k offsets (List.range maxPriorityLevels)
  storeBy k .step initializedAt true

/-- `init`, as far as rings and billboard are concerned. -/
def init (k base : ℕ) (descs : List RingDesc) : Call ℤ := do
  start k
  match ← createLocalRings k base descs with
  | .error e => return e
  | .ok offsets =>
    publishToBillboard k offsets
    return ubCommOk

/-- `deinit_and_broadcast`: what it does to the slot. -/
def deinitAndBroadcast (k : ℕ) : Call ℤ := do
  clearOffsets k (List.range maxPriorityLevels)
  storeBy k .step initializedAt false
  return ubCommOk

/-! ### The others -/

/-- `return UB_COMM_OK` with the address found. -/
def returnRing (addr : ℕ) : Call ℤ := do
  .act (.returns addr) (fun s _ => some (s, ())) .ret
  return ubCommOk

/-- `get_remote_ring` on node `r`; `mapped` says whether `r` has the region of the node. -/
def getRemoteRing (mapped : ℕ → Bool) (r p : ℕ) : Call ℤ := do
  if p ≥ maxPriorityLevels then
    return eInval
  match ← load (lookupAt r p) with
  | some addr => returnRing addr
  | none =>
    let initialized ← load initializedAt
    if initialized = false then
      return ubCommErrPeerNotReady
    match ← loadAt .readOffset (ringOffsetAt p) with
    | none => return ubCommErrRingNotFound
    | some addr =>
      if mapped r = false then
        return ubCommErrRingNotFound
      storeAt .remember (lookupAt r p) (some addr)
      returnRing addr

def forgetAll (r : ℕ) : List ℕ → Call Unit
  | [] => return ()
  | p :: ps => do
    store (lookupAt r p) none
    forgetAll r ps

/-- `remove_node_cache` on node `r`: what it does to the table. -/
def removeNodeCache (r : ℕ) : Call ℤ := do
  forgetAll r (List.range maxPriorityLevels)
  return ubCommOk

/-! ### The parties -/

/-- The incarnations of the node, and thread `j` of another node `r`. -/
inductive Party where
  | node (k : ℕ)
  | other (r j : ℕ)
  deriving DecidableEq

inductive Op where
  | init (base : ℕ) (descs : List RingDesc)
  | deinit
  | getRemoteRing (priority : ℕ)
  | removeNodeCache

/-- How far an incarnation is. -/
inductive Phase where | fresh | begun | running | stopped
  deriving DecidableEq

/-- Every incarnation runs `init` once and may shut down after it; the others call at any time. -/
def client (mapped : ℕ → Bool) : Client Party Mem Label Op ℤ Phase where
  code
    | .node k, .init base descs => init k base descs
    | .node k, .deinit => deinitAndBroadcast k
    | .other r _, .getRemoteRing p => getRemoteRing mapped r p
    | .other r _, .removeNodeCache => removeNodeCache r
    | _, _ => return eInval
  allowed
    | .node _, h, .init _ _ => h = .fresh
    | .node _, h, .deinit => h = .running
    | .other _ _, _, .getRemoteRing _ => true
    | .other _ _, _, .removeNodeCache => true
    | _, _, _ => false
  start
    | _, .init _ _ => .begun
    | _, .deinit => .stopped
    | h, _ => h
  finish
    | h, .init _ _, r => if r = ubCommOk then .running else h
    | h, _, _ => h

abbrev BoardRun := Config Party Mem Label Op ℤ Phase

/-- Zeroed memory, and nobody has been started. -/
def BoardRun.init : BoardRun where
  mem := ⟨false, fun _ => some 0, fun _ _ => none, 0, []⟩
  held := fun _ => .fresh
  pc := fun _ => none

/-- The address of a ring that was completed in the current incarnation. -/
def Current (s : Mem) (addr : ℕ) : Prop := addr ∈ s.completed.map Prod.snd

/-! ### What everybody knows -/

/-- Every offset on the slot is one of the current incarnation. -/
def Clean (s : Mem) : Prop := ∀ p < maxPriorityLevels, ∀ a, s.ringOffsets p = some a → Current s a

/-- How far a party has got: another node that has seen the flag or has an address; an incarnation
    with the rings it has made, while the offsets of `ps` are still those it has found. -/
inductive Stage where
  | away
  | seen
  | holds (addr : ℕ)
  | owns (ps : List ℕ) (offsets : List (ℕ × ℕ))

/-- The offsets outside `ps` are invalid or current, and the rings in `offsets` are made. -/
def Owns (s : Mem) (ps : List ℕ) (offsets : List (ℕ × ℕ)) : Prop :=
  (∀ x ∈ offsets, x ∈ s.completed) ∧
    ∀ p < maxPriorityLevels, p ∉ ps → ∀ a, s.ringOffsets p = some a → Current s a

/-- What an incarnation knows it knows as long as it is the current one. -/
def Stands (s : Mem) : Party → Stage → Prop
  | _, .away => True
  | _, .seen => Clean s
  | _, .holds a => Current s a
  | .node k, .owns ps offsets => s.incarnation = k → Owns s ps offsets
  | .other _ _, .owns _ _ => False

structure Inv (s : Mem) (γ : Party → Stage) : Prop where
  flag : s.initialized = true → Clean s
  table : ∀ r p a, s.remoteLookupTable r p = some a → Current s a
  stands : ∀ q, Stands s q (γ q)

/-- `get_remote_ring` has seen the flag, or an address, and has not returned. -/
def finding : Option Label → Bool
  | some .readOffset | some .remember | some (.returns _) => true
  | _ => false

/-- The node is started when its slot shows no ring, nobody remembers one and nobody is about to
    return one. -/
def StartsUnseen (ℓ : Party → Option Label) (_ : Party) : Label → Mem → Prop
  | .start, s => (s.initialized = true → ∀ p < maxPriorityLevels, s.ringOffsets p = none) ∧
    (∀ r p, s.remoteLookupTable r p = none) ∧ ∀ q, finding (ℓ q) = false
  | _, _ => True

def Fits (e : Option Label) : Stage → Prop
  | .seen | .holds _ => finding e = true
  | _ => True

/-- A ring that is returned is a current one. -/
def ReturnsCurrent (_ : Party) : Label → Mem → Prop
  | .returns addr, s => Current s addr
  | _, _ => True

def outline : Outline Party Mem Label Stage where
  inv := Inv
  lab := Fits
  cond := StartsUnseen
  claim := ReturnsCurrent

section Steps

variable {s s' : Mem} {γ : Party → Stage} {q : Party} {g g' : Stage} {k : ℕ}
  {offsets : List (ℕ × ℕ)}

theorem Current.mono {a : ℕ} (h : Current s a) (hcomp : ∀ x ∈ s.completed, x ∈ s'.completed) :
    Current s' a := by
  obtain ⟨x, hx, rfl⟩ := List.mem_map.mp h
  exact List.mem_map.mpr ⟨x, hcomp x hx, rfl⟩

/-- A step within an incarnation. The offsets change only by the hand of the current incarnation. -/
theorem Inv.step (hi : Inv s γ) (hinc : s'.incarnation = s.incarnation)
    (hcomp : ∀ x ∈ s.completed, x ∈ s'.completed) (hclean : Clean s → Clean s')
    (hflag : s'.initialized = true → s.initialized = true ∨ Clean s')
    (htable : ∀ r p a, s'.remoteLookupTable r p = some a →
      s.remoteLookupTable r p = some a ∨ Current s' a)
    (hoff : s'.ringOffsets = s.ringOffsets ∨ q = .node s.incarnation)
    (own : Stands s' q g') : Inv s' (Function.update γ q g') := by
  refine ⟨fun h => ?_, fun r p a h => ?_, fun u => ?_⟩
  · rcases hflag h with h | h
    · exact hclean (hi.flag h)
    · exact h
  · rcases htable r p a h with h | h
    · exact (hi.table r p a h).mono hcomp
    · exact h
  · rcases eq_or_ne u q with rfl | hu
    · rwa [Function.update_self]
    rw [Function.update_of_ne hu]
    have h := hi.stands u
    cases hg : γ u with
    | away => cases u <;> trivial
    | seen =>
      rw [hg] at h
      cases u <;> exact hclean h
    | holds a =>
      rw [hg] at h
      cases u <;> exact Current.mono h hcomp
    | owns ps offsets =>
      rw [hg] at h
      cases u with
      | node k =>
        intro hk
        obtain ⟨hmade, hcur⟩ := h (hinc ▸ hk)
        refine ⟨fun x hx => hcomp x (hmade x hx), ?_⟩
        rcases hoff with hoff | hq
        · exact fun p hp hps a ha => (hcur p hp hps a (hoff ▸ ha)).mono hcomp
        · exact absurd (by rw [hq, ← hinc, hk]) hu
      | other r j => exact h

/-- Somebody learns something. -/
theorem Inv.move (hi : Inv s γ) (own : Stands s q g') : Inv s (Function.update γ q g') :=
  hi.step rfl (fun _ h => h) id .inl (fun _ _ _ => .inl) (.inl rfl) own

/-- A new incarnation: whatever the slot and the tables show would be of the old one. -/
theorem Inv.start (hi : Inv s γ)
    (hslot : s.initialized = true → ∀ p < maxPriorityLevels, s.ringOffsets p = none)
    (htable : ∀ r p, s.remoteLookupTable r p = none) (hfree : ∀ u, γ u ≠ .seen ∧ ∀ a, γ u ≠ .holds a) :
    Inv { s with incarnation := k, completed := [] }
      (Function.update γ (.node k) (.owns (List.range maxPriorityLevels) [])) := by
  refine ⟨fun h p hp a ha => ?_, fun r p a h => ?_, fun u => ?_⟩
  · have hnone := hslot h p hp
    rw [hnone] at ha
    cases ha
  · have hnone := htable r p
    rw [hnone] at h
    cases h
  · rcases eq_or_ne u (.node k) with rfl | hu
    · rw [Function.update_self]
      exact fun _ => ⟨fun x hx => (by cases hx), fun p hp hps => absurd (List.mem_range.mpr hp) hps⟩
    rw [Function.update_of_ne hu]
    have h := hi.stands u
    cases hg : γ u with
    | away => cases u <;> trivial
    | seen => exact absurd hg (hfree u).1
    | holds a => exact absurd hg ((hfree u).2 a)
    | owns ps offsets =>
      rw [hg] at h
      cases u with
      | node k' => exact fun hk' => absurd (congrArg Party.node (Eq.symm hk')) hu
      | other r j => exact h

/-! ### The calls -/

abbrev Does (q : Party) {α : Type} (c : Call α) (Q : α → Stage → Prop) (g : Stage) : Prop :=
  wp outline q (fun _ _ => True) c Q g

variable {α : Type} {ps : List ℕ} {offs : List (ℕ × ℕ)} {p a : ℕ}

theorem owns_of_pre {e : Label} (hpre : outline.Pre (.node k) e (.owns ps offs) s γ)
    (hk : s.incarnation = k) : Owns s ps offs := by
  have h := hpre.inv.stands (.node k)
  rw [hpre.own] at h
  exact h hk

/-- The constructor of a ring. -/
theorem wp_construct (off : ℕ) :
    Does (.node k) (construct k p off) (fun _ g => g = .owns ps ((p, off) :: offs)) (.owns ps offs) := by
  refine ⟨trivial, fun s γ hpre => ⟨trivial, fun c s' b hf => ?_⟩⟩
  dsimp only at hf
  split at hf <;> cases hf
  refine ⟨.owns ps offs, trivial, by rw [hpre.update]; exact hpre.inv, ?_⟩
  refine ⟨trivial, fun s γ hpre => ⟨trivial, fun c s' b hf => ?_⟩⟩
  dsimp only at hf
  split at hf <;> cases hf
  rename_i hk
  have hcomp : ∀ x ∈ s.completed, x ∈ (p, off) :: s.completed := fun x hx => List.mem_cons_of_mem _ hx
  obtain ⟨hmade, hcur⟩ := owns_of_pre hpre hk
  refine ⟨.owns ps ((p, off) :: offs), trivial, ?_, trivial, rfl⟩
  refine hpre.inv.step rfl hcomp (fun h p hp a ha => (h p hp a ha).mono hcomp) .inl
    (fun _ _ _ => .inl) (.inl rfl) fun _ => ⟨?_, fun p hp hps a ha => (hcur p hp hps a ha).mono hcomp⟩
  exact List.forall_mem_cons.mpr ⟨List.mem_cons_self, fun x hx => hcomp x (hmade x hx)⟩

/-- What comes out of the loop over the rings: everything that was made, or an error. -/
def Created (ps : List ℕ) (r : Except ℤ (List (ℕ × ℕ))) (g : Stage) : Prop :=
  ∃ offs, g = .owns ps offs ∧ (∀ o, r = .ok o → o = offs) ∧ ∀ e, r = .error e → e ≠ ubCommOk

theorem created_error {e : ℤ} (he : e ≠ ubCommOk) :
    Does (.node k) (.ret (.error e)) (Created ps) (.owns ps offs) := by
  refine ⟨trivial, offs, rfl, by simp, ?_⟩
  rintro _ ⟨⟩
  exact he

theorem wp_createUserRings (base : ℕ) (descs : List RingDesc) (addr : ℕ) (offs : List (ℕ × ℕ)) :
    Does (.node k) (createUserRings k base descs addr offs) (Created ps) (.owns ps offs) := by
  induction descs generalizing addr offs with
  | nil => exact ⟨trivial, offs, rfl, fun o ho => (Except.ok.inj ho).symm, by simp⟩
  | cons desc descs ih =>
    unfold createUserRings
    dsimp only
    split
    · exact created_error (by decide)
    split
    · exact created_error (by decide)
    split
    · exact created_error (by decide)
    refine wp_bind (wp_mono (wp_construct _) ?_)
    rintro _ _ - rfl
    exact ih _ _

/-- A store into the slot by the current incarnation. -/
theorem Inv.setOffset (hi : Inv s γ) (hk : s.incarnation = k) {v : Option ℕ}
    (hv : ∀ a, v = some a → Current s a)
    (own : Stands ((ringOffsetAt p).set v s) (.node k) g') :
    Inv ((ringOffsetAt p).set v s) (Function.update γ (.node k) g') := by
  refine hi.step rfl (fun _ h => h) (fun hc p' hp' a ha => ?_) .inl (fun _ _ _ => .inl)
    (.inr (by rw [hk])) own
  rcases eq_or_ne p' p with rfl | hne
  · exact hv a (by simpa [ringOffsetAt] using ha)
  · exact hc p' hp' a (by simpa [ringOffsetAt, hne] using ha)

theorem wp_clearOffsets (ps : List ℕ) :
    Does (.node k) (clearOffsets k ps) (fun _ g => g = .owns [] offs) (.owns ps offs) := by
  induction ps with
  | nil => exact ⟨trivial, rfl⟩
  | cons p ps ih =>
    refine ⟨trivial, fun s γ hpre => ⟨trivial, fun c s' b hf => ?_⟩⟩
    dsimp only at hf
    split at hf <;> cases hf
    rename_i hk
    refine ⟨.owns ps offs, trivial, hpre.inv.setOffset hk (by simp) fun _ => ?_, ih⟩
    obtain ⟨hmade, hcur⟩ := owns_of_pre hpre hk
    refine ⟨hmade, fun p' hp' hps a ha => ?_⟩
    rcases eq_or_ne p' p with rfl | hne
    · simp [ringOffsetAt] at ha
    · exact hcur p' hp' (by simp [hne, hps]) a (by simpa [ringOffsetAt, hne] using ha)

/-- Shutting down needs to know nothing. -/
theorem wp_clearOffsets_away (ps : List ℕ) :
    Does (.node k) (clearOffsets k ps) (fun _ g => g = .away) .away := by
  induction ps with
  | nil => exact ⟨trivial, rfl⟩
  | cons p ps ih =>
    refine ⟨trivial, fun s γ hpre => ⟨trivial, fun c s' b hf => ?_⟩⟩
    dsimp only at hf
    split at hf <;> cases hf
    rename_i hk
    exact ⟨.away, trivial, hpre.inv.setOffset hk (by simp) trivial, ih⟩

theorem current_of_lookup (h : ∀ x ∈ offs, x ∈ s.completed) (hp : offs.lookup p = some a) :
    Current s a := by
  have hmem : (p, a) ∈ offs := by
    induction offs with
    | nil => cases hp
    | cons x offs ih =>
      rw [List.lookup_cons] at hp
      split at hp
      · rename_i heq
        obtain rfl : p = x.1 := by simpa using heq
        cases hp
        exact List.mem_cons_self
      · exact List.mem_cons_of_mem _ (ih (fun y hy => h y (List.mem_cons_of_mem _ hy)) hp)
  exact List.mem_map.mpr ⟨(p, a), h _ hmem, rfl⟩

theorem wp_writeOffsets (ps : List ℕ) :
    Does (.node k) (writeOffsets k offs ps) (fun _ g => g = .owns [] offs) (.owns [] offs) := by
  induction ps with
  | nil => exact ⟨trivial, rfl⟩
  | cons p ps ih =>
    unfold writeOffsets
    cases hp : offs.lookup p with
    | none => exact ih
    | some off =>
      refine ⟨trivial, fun s γ hpre => ⟨trivial, fun c s' b hf => ?_⟩⟩
      dsimp only at hf
      split at hf <;> cases hf
      rename_i hk
      obtain ⟨hmade, hcur⟩ := owns_of_pre hpre hk
      have hoff : Current s off := current_of_lookup hmade hp
      refine ⟨.owns [] offs, trivial, hpre.inv.setOffset hk ?_ fun _ => ⟨hmade, fun p' hp' _ a ha => ?_⟩, ih⟩
      · rintro a ⟨⟩
        exact hoff
      · rcases eq_or_ne p' p with rfl | hne
        · obtain rfl : off = a := by simpa [ringOffsetAt] using ha
          exact hoff
        · exact hcur p' hp' (by simp) a (by simpa [ringOffsetAt, hne] using ha)

theorem not_finding_of_pre (hpre : outline.Pre q .start g s γ) (u : Party) :
    γ u ≠ .seen ∧ ∀ a, γ u ≠ .holds a := by
  obtain ⟨ℓ, hℓ, hcond⟩ := hpre.run
  have hfalse := hcond.2.2 u
  refine ⟨fun hu => ?_, fun a hu => ?_⟩
  · have h := hℓ u
    rw [hu] at h
    exact absurd (h.symm.trans hfalse) (by decide)
  · have h := hℓ u
    rw [hu] at h
    exact absurd (h.symm.trans hfalse) (by decide)

theorem wp_publishToBillboard :
    Does (.node k) (publishToBillboard k offs) (fun _ g => g = .away)
      (.owns (List.range maxPriorityLevels) offs) := by
  refine wp_bind (wp_mono (wp_clearOffsets _) ?_)
  rintro _ _ - rfl
  refine wp_bind (wp_mono (wp_writeOffsets _) ?_)
  rintro _ _ - rfl
  refine ⟨trivial, fun s γ hpre => ⟨trivial, fun c s' b hf => ?_⟩⟩
  dsimp only at hf
  split at hf <;> cases hf
  rename_i hk
  obtain ⟨-, hcur⟩ := owns_of_pre hpre hk
  have hclean : Clean s := fun p hp => hcur p hp (by simp)
  exact ⟨.away, trivial, hpre.inv.step rfl (fun _ h => h) id (fun _ => .inr hclean)
    (fun _ _ _ => .inl) (.inl rfl) trivial, trivial, rfl⟩

/-- An incarnation that has failed to create its rings keeps what it has. -/
def Initialised (r : ℤ) (g : Stage) : Prop := g = .away ∨ r ≠ ubCommOk ∧ ∃ ps offs, g = .owns ps offs

theorem wp_init (base : ℕ) (descs : List RingDesc) :
    Does (.node k) (init k base descs) Initialised .away := by
  refine ⟨trivial, fun s γ hpre => ⟨trivial, fun c s' b hf => ?_⟩⟩
  dsimp only at hf
  split at hf <;> cases hf
  obtain ⟨ℓ, -, hcond⟩ := hpre.run
  refine ⟨.owns (List.range maxPriorityLevels) [], trivial, ?_, ?_⟩
  · exact hpre.inv.start hcond.1 hcond.2.1 (not_finding_of_pre hpre)
  dsimp only [ret_bind]
  refine wp_bind (wp_bind (wp_mono (wp_construct _) ?_))
  rintro _ _ - rfl
  refine wp_mono (wp_createUserRings base descs _ _) ?_
  rintro (e | offs) _ - ⟨offs', rfl, hok, herror⟩
  · exact ⟨trivial, .inr ⟨herror e rfl, _, _, rfl⟩⟩
  · obtain rfl := hok offs rfl
    refine wp_bind (wp_mono wp_publishToBillboard ?_)
    rintro _ _ - rfl
    exact ⟨trivial, .inl rfl⟩

theorem wp_deinitAndBroadcast :
    Does (.node k) (deinitAndBroadcast k) (fun _ g => g = .away) .away := by
  refine wp_bind (wp_mono (wp_clearOffsets_away _) ?_)
  rintro _ _ - rfl
  refine ⟨trivial, fun s γ hpre => ⟨trivial, fun c s' b hf => ?_⟩⟩
  dsimp only at hf
  split at hf <;> cases hf
  exact ⟨.away, trivial, hpre.inv.step rfl (fun _ h => h) id (fun h => by cases h)
    (fun _ _ _ => .inl) (.inl rfl) trivial, trivial, rfl⟩

variable {r j : ℕ} {mapped : ℕ → Bool}

theorem wp_returnRing : Does q (returnRing a) (fun _ g => g = .away) (.holds a) := by
  refine ⟨rfl, fun s γ hpre => ⟨?_, fun c s' b hf => ?_⟩⟩
  · have h := hpre.inv.stands q
    rw [hpre.own] at h
    cases q <;> exact h
  · cases hf
    exact ⟨.away, trivial, hpre.inv.move (by cases q <;> trivial), trivial, rfl⟩

theorem Inv.setLookup (hi : Inv s γ) {v : Option ℕ} (hv : ∀ a, v = some a → Current s a)
    (own : Stands ((lookupAt r p).set v s) q g') :
    Inv ((lookupAt r p).set v s) (Function.update γ q g') := by
  refine hi.step rfl (fun _ h => h) id .inl (fun r' p' a ha => ?_) (.inl rfl) own
  rcases eq_or_ne r' r with rfl | hr
  · rcases eq_or_ne p' p with rfl | hp
    · exact .inr (hv a (by simpa [lookupAt] using ha))
    · exact .inl (by simpa [lookupAt, hp] using ha)
  · exact .inl (by simpa [lookupAt, hr] using ha)

theorem wp_getRemoteRing : Does (.other r j) (getRemoteRing mapped r p) (fun _ g => g = .away) .away := by
  unfold getRemoteRing
  split
  · exact ⟨trivial, rfl⟩
  rename_i hp
  refine ⟨trivial, fun s γ hpre => ⟨trivial, fun c s' b hf => ?_⟩⟩
  cases hf
  cases hknown : s.remoteLookupTable r p with
  | some a =>
    have hget : (lookupAt r p).get s = some a := hknown
    refine ⟨.holds a, trivial, hpre.inv.move (hpre.inv.table r p a hknown), ?_⟩
    rw [hget]
    exact wp_returnRing
  | none =>
    have hget : (lookupAt r p).get s = none := hknown
    refine ⟨.away, trivial, hpre.inv.move trivial, ?_⟩
    rw [hget]
    refine ⟨trivial, fun s γ hpre => ⟨trivial, fun c s' b hf => ?_⟩⟩
    cases hf
    cases hflag : s.initialized with
    | false =>
      have hget : initializedAt.get s = false := hflag
      refine ⟨.away, trivial, hpre.inv.move trivial, ?_⟩
      rw [hget]
      exact ⟨trivial, rfl⟩
    | true =>
      have hget : initializedAt.get s = true := hflag
      refine ⟨.seen, trivial, hpre.inv.move (hpre.inv.flag hflag), ?_⟩
      rw [hget]
      refine ⟨rfl, fun s γ hpre => ⟨trivial, fun c s' b hf => ?_⟩⟩
      cases hf
      have hclean : Clean s := by
        have h := hpre.inv.stands (.other r j)
        rwa [hpre.own] at h
      cases hoff : s.ringOffsets p with
      | none =>
        have hget : (ringOffsetAt p).get s = none := hoff
        refine ⟨.away, trivial, hpre.inv.move trivial, ?_⟩
        rw [hget]
        exact ⟨trivial, rfl⟩
      | some a =>
        have hget : (ringOffsetAt p).get s = some a := hoff
        by_cases hm : mapped r = false
        · refine ⟨.away, trivial, hpre.inv.move trivial, ?_⟩
          rw [hget]
          dsimp only [ret_bind]
          rw [if_pos hm]
          exact ⟨trivial, rfl⟩
        refine ⟨.holds a, trivial, hpre.inv.move (hclean p (not_le.mp hp) a hoff), ?_⟩
        rw [hget]
        dsimp only [ret_bind]
        rw [if_neg hm]
        refine ⟨rfl, fun s γ hpre => ⟨trivial, fun c s' b hf => ?_⟩⟩
        cases hf
        have hcur : Current s a := by
          have h := hpre.inv.stands (.other r j)
          rwa [hpre.own] at h
        refine ⟨.holds a, trivial, hpre.inv.setLookup ?_ hcur, wp_returnRing⟩
        rintro _ ⟨⟩
        exact hcur

theorem wp_removeNodeCache : Does (.other r j) (removeNodeCache r) (fun _ g => g = .away) .away := by
  refine wp_bind ?_
  generalize List.range maxPriorityLevels = ps
  induction ps with
  | nil => exact ⟨trivial, trivial, rfl⟩
  | cons p ps ih =>
    refine wp_bind (wp_store trivial fun s γ hpre => ⟨trivial, .away, trivial, ?_, trivial, ih⟩)
    exact hpre.inv.setLookup (by simp) trivial

end Steps

/-! ### Every run -/

/-- What a party between calls has: nothing, or the rings it made before its `init` failed. -/
def AtRest : Party → Phase → Stage → Prop
  | .node _, .begun, g => g = .away ∨ ∃ ps offs, g = .owns ps offs
  | _, _, g => g = .away

def spec : Spec Party Mem Label Op ℤ Phase Stage where
  toOutline := outline
  rest := AtRest
  moves := fun _ _ _ _ => True
  good := fun _ _ _ _ => True

theorem proved (mapped : ℕ → Bool) : spec.Proved (client mapped) where
  stay := fun _ _ _ _ _ => trivial
  idle := by
    intro q h g hg
    refine ⟨?_, trivial⟩
    cases q <;> cases h <;> first
      | (cases hg; trivial)
      | (rcases hg with rfl | ⟨ps, offs, rfl⟩ <;> trivial)
  start := fun _ _ _ _ _ _ => trivial
  call := by
    rintro q h op g ha hg
    cases q with
    | node k =>
      cases op with
      | init base descs =>
        obtain rfl : h = .fresh := by simpa [client] using ha
        obtain rfl : g = .away := hg
        refine wp_mono (wp_init base descs) fun r g' _ hr => ⟨trivial, ?_⟩
        rcases hr with rfl | ⟨hne, ps, offs, rfl⟩
        · by_cases hr : r = ubCommOk <;> simp [spec, client, hr, AtRest]
        · simp [spec, client, hne, AtRest]
      | deinit =>
        obtain rfl : h = .running := by simpa [client] using ha
        obtain rfl : g = .away := hg
        exact wp_mono wp_deinitAndBroadcast fun r g' _ hr => ⟨trivial, hr⟩
      | getRemoteRing p => simp [client] at ha
      | removeNodeCache => simp [client] at ha
    | other r j =>
      obtain rfl : g = .away := by cases h <;> exact hg
      cases op with
      | init base descs => simp [client] at ha
      | deinit => simp [client] at ha
      | getRemoteRing p =>
        refine wp_mono wp_getRemoteRing fun r g' _ hr => ⟨trivial, ?_⟩
        cases h <;> exact hr
      | removeNodeCache =>
        refine wp_mono wp_removeNodeCache fun r g' _ hr => ⟨trivial, ?_⟩
        cases h <;> exact hr

theorem holds_init (mapped : ℕ → Bool) :
    spec.Holds (client mapped) BoardRun.init fun _ => .away where
  inv := ⟨by simp [BoardRun.init], by simp [BoardRun.init], fun q => by cases q <;> trivial⟩
  moved := fun _ => ⟨.away, trivial⟩
  idle := fun q _ => by cases q <;> rfl
  busy := by simp [BoardRun.init]

/-- In every run in which the node is started only when its slot shows no ring and nobody has one
    or is about to return one, `get_remote_ring` returns rings of the current incarnation only. -/
theorem current_of_startsUnseen {mapped : ℕ → Bool} {x : BoardRun} {q : Party} {addr : ℕ}
    (hx : Config.Reach (client mapped) StartsUnseen BoardRun.init x)
    (hq : x.labels q = some (.returns addr)) : Current x.mem addr := by
  have hmeets : x.Meets StartsUnseen q := by
    intro e he
    obtain rfl : Label.returns addr = e := Option.some.inj (hq.symm.trans he)
    trivial
  exact (proved mapped).claims (holds_init mapped) hx hmeets hq

/-- Two rings of four slots. -/
def twoRings : List RingDesc := [⟨4, 64, 1⟩, ⟨4, 64, 2⟩]

/-- The first of them has become larger. -/
def largerRings : List RingDesc := [⟨8, 64, 1⟩, ⟨4, 64, 2⟩]

theorem meets_of_not_start (x : BoardRun) (q : Party) (h : decide (x.labels q ≠ some .start) = true) :
    x.Meets StartsUnseen q := by
  intro e he
  cases e with
  | start => exact absurd he (of_decide_eq_true h)
  | _ => trivial

/-- The first start meets the condition. -/
theorem meets_of_alone {x : BoardRun} {q : Party} (hmem : x.mem = BoardRun.init.mem)
    (hidle : ∀ u, u ≠ q → x.pc u = none) (hq : x.labels q = some .start) :
    x.Meets StartsUnseen q := by
  intro e he
  obtain rfl : Label.start = e := Option.some.inj (hq.symm.trans he)
  refine ⟨by simp [hmem, BoardRun.init], fun r p => by rw [hmem]; rfl, fun u => ?_⟩
  rcases eq_or_ne u q with rfl | hu
  · rw [hq]
    rfl
  · rw [Config.labels, hidle u hu]
    rfl

/-- The first start: the second ring is found where it was made. -/
theorem current_of_startsUnseen_found :
    ∃ x, Config.Reach (client fun _ => true) StartsUnseen BoardRun.init x ∧
      x.labels (.other 1 0) = some (.returns 787328) ∧ Current x.mem 787328 := by
  have hcall : Config.Reach (client fun _ => true) StartsUnseen BoardRun.init _ :=
    .step .init (fun e he => by cases he) (t := .node 1) (m := .call (.init 0 twoRings)) rfl
  have hstart : Config.Reach (client fun _ => true) StartsUnseen BoardRun.init _ :=
    .step hcall (meets_of_alone rfl (fun u hu => by simp [hu, BoardRun.init]) rfl)
      (t := .node 1) (m := .step 0) rfl
  have hrun : ∃ x, Config.Reach (client fun _ => true) StartsUnseen BoardRun.init x ∧
      x.labels (.other 1 0) = some (.returns 787328) :=
    hstart.runAll_any meets_of_not_start
      [.finish (.node 1), .call (.other 1 0) (.getRemoteRing 2),
        .upTo (.other 1 0) (.returns 787328)] (by decide +kernel)
  obtain ⟨x, hx, hret⟩ := hrun
  exact ⟨x, hx, hret, current_of_startsUnseen hx hret⟩

/-- The node dies and is started again with a larger first ring. Before it gets to its slot, where
    the second ring of the first incarnation still is, another node finds that one; it is not the
    address of any ring now. -/
theorem staleOffset_violated :
    ∃ x, Config.Reachable (client fun _ => true) BoardRun.init x ∧
      x.labels (.other 1 0) = some (.returns 787328) ∧ ¬ Current x.mem 787328 := by
  have hrun : ∃ x, Config.Reachable (client fun _ => true) BoardRun.init x ∧
      x.labels (.other 1 0) = some (.returns 787328) ∧ 787328 ∉ x.mem.completed.map Prod.snd :=
    Config.reachable_of_runAll
      [.call (.node 1) (.init 0 twoRings), .finish (.node 1), .call (.node 2) (.init 0 largerRings),
        .upTo (.node 2) (.clear 0), .call (.other 1 0) (.getRemoteRing 2),
        .upTo (.other 1 0) (.returns 787328)] (by decide +kernel)
  exact hrun

end Billboard

end UbsAtomic
