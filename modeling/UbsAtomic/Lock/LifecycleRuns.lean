import UbsAtomic.Conc.Machine
import UbsAtomic.Lock.Lifecycle

/-! One initialiser at a time, and references that are counted.

        idle ──CAS 0──▶ initialising ──fields──▶ (built) ──store──▶ entering / idle
        idle ──CAS n──▶ entering ──registry──▶ idle ──lock_free──▶ leaving ──CAS──▶ idle

    While somebody initialises, `is_inited` is negative and no reference is outstanding; else it is
    the number of outstanding references. A party that has a reference counted therefore registers
    in an initialised lock. A rebuild that only found `is_inited > 0` has none of its own. -/

namespace UbsAtomic

open Conc Conc.Prog

namespace Lifecycle

open Shm

/-! ### The invariant -/

/-- Where a party stands; an initialiser knows which fields it has written. -/
inductive Ghost where
  | idle
  | entering
  | initialising (fs : List Field)
  | built
  | leaving
  deriving DecidableEq

@[simp] def Ghost.Inside : Ghost → Prop
  | .initialising _ | .built => True
  | _ => False

/-- The fields of the lock itself and of its wait queue. -/
def lockFields : List Field :=
  [.lockWord, .sharedOwnerBitmap, .xRecursive, .sxRecursive, .reserveLockOwner, .lockOwnerX,
    .lockOwnerSx, .queueHead, .queueTail, .waitingCount] ++
  (List.range ubMaxNodes).flatMap fun i => [.slotSeq i, .slotPayload i]

/-- All fields of the object but `is_inited`. -/
def fields : List Field := lockFields ++ allNodes.map .nodeRegistry

/-- The last initialiser has written every field since it began, and will write none again. -/
def Initialised (s : Site) : Prop := s.ready = true ∧ ∀ f ∈ fields, f ∈ s.written

/-- The references that are counted, by node. -/
def outstanding (s : Site) : List NodeId :=
  s.entering.map (·.nodeId) ++ s.leaving.map (·.nodeId) ++ s.granted ++ s.refs

structure Inv (s : Site) (γ : Location → Ghost) : Prop where
  inside : Tracks s.inside γ Ghost.Inside
  entering : Tracks s.entering γ (· = .entering)
  leaving : Tracks s.leaving γ (· = .leaving)
  one : s.inside.length ≤ 1
  neg : s.shm.isInited < 0 ↔ s.inside ≠ []
  alone : s.inside ≠ [] → outstanding s = []
  count : 0 ≤ s.shm.isInited → s.shm.isInited = (outstanding s).length
  ready : outstanding s ≠ [] → Initialised s
  built : ∀ l, γ l = .built → Initialised s
  noted : ∀ l fs, γ l = .initialising fs → ∀ f ∈ fs, f ∈ s.written

/-- What a run has to meet: a node frees only a reference it obtained, and a rebuild that found the
    lock ready registers only while its node has a reference. -/
def Lawful (_ : Location → Option Label) (_ : Location) : Label → Site → Prop
  | .free n, s => n ∈ s.refs
  | .follow n, s => n ∈ outstanding s
  | _, _ => True

/-- What is true at a step. -/
def Claim (l : Location) : Label → Site → Prop
  | .init, s => l ∈ s.inside ∧ outstanding s = []
  | .register _, s | .follow _, s => Initialised s
  | _, _ => True

def outline : Outline Location Site Label Ghost := ⟨Inv, fun _ _ => True, Lawful, Claim⟩

/-- The obligation of a call; ghosts move freely. -/
abbrev Does {α : Type} (l : Location) (p : Call α) (Q : α → Ghost → Prop) (g : Ghost) : Prop :=
  wp outline l (fun _ _ => True) p Q g

/-! ### Steps that change neither the count nor its meaning -/

structure SameLife (s s' : Site) : Prop where
  isInited : s'.shm.isInited = s.shm.isInited
  inside : s'.inside = s.inside
  entering : s'.entering = s.entering
  leaving : s'.leaving = s.leaving
  granted : s'.granted = s.granted
  refs : s'.refs = s.refs
  ready : s'.ready = s.ready
  written : ∀ f ∈ s.written, f ∈ s'.written

section Same

variable {s s' : Site} {γ : Location → Ghost} {l : Location} {g : Ghost}

@[refl] theorem SameLife.refl (s : Site) : SameLife s s :=
  ⟨rfl, rfl, rfl, rfl, rfl, rfl, rfl, fun _ h => h⟩

theorem SameLife.outstanding (h : SameLife s s') : outstanding s' = outstanding s := by
  rw [Lifecycle.outstanding, h.entering, h.leaving, h.granted, h.refs]
  rfl

theorem SameLife.initialised (h : SameLife s s') (hs : Initialised s) : Initialised s' :=
  ⟨h.ready.trans hs.1, fun f hf => h.written f (hs.2 f hf)⟩

theorem Inv.same (hi : Inv s γ) (h : SameLife s s') : Inv s' γ where
  inside := by rw [h.inside]; exact hi.inside
  entering := by rw [h.entering]; exact hi.entering
  leaving := by rw [h.leaving]; exact hi.leaving
  one := by rw [h.inside]; exact hi.one
  neg := by rw [h.isInited, h.inside]; exact hi.neg
  alone := by rw [h.inside, h.outstanding]; exact hi.alone
  count := by rw [h.isInited, h.outstanding]; exact hi.count
  ready := fun hne => h.initialised (hi.ready (h.outstanding ▸ hne))
  built := fun l hl => h.initialised (hi.built l hl)
  noted := fun l fs hl f hf => h.written f (hi.noted l fs hl f hf)

/-- Places outside the count. -/
def OffCount {α : Type} (p : Place Site α) : Prop := ∀ s v, SameLife s (p.set v s)

theorem offCount_nodeRegistry (n : NodeId) : OffCount (nodeRegistry n) :=
  fun _ _ => ⟨rfl, rfl, rfl, rfl, rfl, rfl, rfl, fun _ h => h⟩

theorem offCount_newBound (n : NodeId) : OffCount (newBoundAt n) :=
  fun _ _ => ⟨rfl, rfl, rfl, rfl, rfl, rfl, rfl, fun _ h => h⟩

theorem offCount_noted (f : Field) : OffCount f.noted := fun s v => by
  cases f <;> exact ⟨rfl, rfl, rfl, rfl, rfl, rfl, rfl, fun _ h => List.mem_cons_of_mem _ h⟩

theorem stable_step (l : Location) (g : Ghost) :
    outline.Stable l (fun _ _ => True) SameLife (· = .step) g where
  inv := fun _ _ _ _ hs hi => hi.same hs
  rest := trivial
  lab := fun _ _ => trivial
  claim := by
    rintro _ _ rfl
    trivial
  keep := trivial

/-- Steps of any party that do not matter here. -/
abbrev Plain {α : Type} (p : Call α) : Prop := Quiet SameLife (· = .step) p

theorem plain_load {α : Type} (p : Place Site α) : Plain (load p) := .read rfl .refl

theorem OffCount.store {α : Type} {p : Place Site α} (hp : OffCount p) (v : α) :
    Plain (store p v) := .write rfl (hp · v)

end Same

/-! ### Inside an initialisation -/

section Inside

variable {s : Site} {γ : Location → Ghost} {l : Location} {g : Ghost}

theorem Inv.own_inside (hi : Inv s γ) (hg : (γ l).Inside) :
    l ∈ s.inside ∧ s.inside = [l] ∧ s.shm.isInited < 0 ∧ outstanding s = [] := by
  have hmem : l ∈ s.inside := (hi.inside.mem l).mpr hg
  have hne : s.inside ≠ [] := List.ne_nil_of_mem hmem
  obtain ⟨a, ha⟩ := List.length_eq_one_iff.mp
    (le_antisymm hi.one (List.length_pos_iff.mpr hne))
  rw [ha, List.mem_singleton] at hmem
  subst hmem
  exact ⟨by simp [ha], ha, hi.neg.mpr hne, hi.alone hne⟩

/-- A party that is not inside takes no note; one that is has written what it notes. -/
theorem Inv.noted_update (hi : Inv s γ) {s' : Site} (hs : ∀ f ∈ s.written, f ∈ s'.written)
    (hg : ∀ fs, g = .initialising fs → ∀ f ∈ fs, f ∈ s'.written) (u : Location) (fs : List Field)
    (hu : Function.update γ l g u = .initialising fs) : ∀ f ∈ fs, f ∈ s'.written := by
  by_cases hul : u = l
  · subst hul
    exact hg fs (by simpa using hu)
  · rw [Function.update_of_ne hul] at hu
    exact fun f hf => hs f (hi.noted u fs hu f hf)

/-- A store of the initialiser is noted. -/
theorem Inv.note (hi : Inv s γ) {fs : List Field} {f : Field} (hγ : γ l = .initialising fs)
    (hf : f ∈ s.written) : Inv s (Function.update γ l (.initialising (f :: fs))) := by
  refine ⟨hi.inside.same (by simp [hγ]), hi.entering.same (by simp [hγ]),
    hi.leaving.same (by simp [hγ]), hi.one, hi.neg, hi.alone, hi.count, hi.ready, fun u hu => ?_,
    hi.noted_update (fun _ h => h) ?_⟩
  · by_cases hul : u = l
    · subst hul
      simp at hu
    · exact hi.built u (by rwa [Function.update_of_ne hul] at hu)
  · rintro _ ⟨⟩
    exact List.forall_mem_cons.mpr ⟨hf, hi.noted l fs hγ⟩

/-- A block of stores of the initialiser, the fields of `ws` among them. -/
def Fills {α : Type} (p : Call α) (ws : List Field) : Prop :=
  ∀ l fs, Does l p (fun _ g => ∃ fs', g = .initialising fs' ∧ (∀ f ∈ fs, f ∈ fs') ∧
    ∀ f ∈ ws, f ∈ fs') (.initialising fs)

section Fills

variable {α β : Type} {p : Call α} {ws ws' : List Field}

theorem fills_ret (a : α) : Fills (.ret a) [] :=
  fun _ fs => ⟨trivial, fs, rfl, fun _ h => h, by simp⟩

theorem Fills.bind {k : α → Call β} (hp : Fills p ws) (hk : ∀ a, Fills (k a) ws') :
    Fills (p.bind k) (ws ++ ws') := by
  intro l fs
  refine wp_bind (wp_mono (hp l fs) ?_)
  rintro a _ - ⟨fs₁, rfl, h₁, hws⟩
  refine wp_mono (hk a l fs₁) ?_
  rintro b _ - ⟨fs₂, rfl, h₂, hws'⟩
  refine ⟨fs₂, rfl, fun f hf => h₂ f (h₁ f hf), fun f hf => ?_⟩
  exact (List.mem_append.mp hf).elim (fun hf => h₂ f (hws f hf)) (hws' f)

theorem Fills.mono (hp : Fills p ws) (h : ∀ f ∈ ws', f ∈ ws) : Fills p ws' := by
  intro l fs
  refine wp_mono (hp l fs) ?_
  rintro a _ - ⟨fs', rfl, hfs, hws⟩
  exact ⟨fs', rfl, hfs, fun f hf => hws f (h f hf)⟩

/-- A block whose fields do not matter. -/
theorem Fills.some (hp : Fills p ws) : Fills p [] := hp.mono (by simp)

theorem fills_put (f : Field) (v : f.Val) : Fills (put f v) [f] := by
  intro l fs
  refine wp_store trivial fun s γ hpre => ?_
  obtain ⟨hmem, -, -, hnone⟩ := hpre.inv.own_inside (l := l) (by rw [hpre.own]; trivial)
  refine ⟨⟨hmem, hnone⟩, .initialising (f :: fs), trivial, ?_, trivial, f :: fs, rfl,
    fun _ h => List.mem_cons_of_mem f h, by simp⟩
  exact (hpre.inv.same (offCount_noted f s v)).note hpre.own List.mem_cons_self

/-- A store in front of the rest. -/
theorem Fills.after {f : Field} {v : f.Val} {p : Unit → Call α} {ws : List Field}
    (h : Fills (p ()) ws) : Fills ((put f v).bind p) ([f] ++ ws) :=
  .bind (fills_put f v) fun _ => h

theorem fills_clearNodeRegistry (ns : List NodeId) :
    Fills (clearNodeRegistry ns) (ns.map .nodeRegistry) := by
  induction ns with
  | nil => exact fills_ret ()
  | cons n ns ih => exact .after ih

theorem fills_clearSlots (payload : UbWaiter) (is : List ℕ) : Fills (clearSlots payload is)
    (is.flatMap fun i => [.slotSeq i, .slotPayload i]) := by
  induction is with
  | nil => exact fills_ret ()
  | cons i is ih => exact .after <| .after ih

theorem fills_initFields : Fills initFields fields := by
  refine Fills.mono (.after <| .after <| .after <| .after <| .after <| .after <| .after <|
    .bind (p := createWaitQueue) (.after <| .after <| .after <| fills_clearSlots _ _)
      fun _ => fills_clearNodeRegistry _) ?_
  decide +kernel

theorem fills_reset : Fills resetSharedLockForRebuild lockFields := by
  refine Fills.mono (.after <| .after <| .after <| .after <| .after <| .after <| .after <| .after <|
    .after <| .after <| fills_clearSlots _ _) ?_
  decide +kernel

theorem fills_putHolder (st : Scan) : Fills (putHolder st) [] := by
  unfold putHolder
  split
  · exact .some (.after <| .after <| fills_put _ _)
  · exact .some (.after <| .after <| fills_put _ _)
  · split
    · exact (fills_put _ _).some
    · exact fills_ret ()

theorem fills_replay (st : Scan) : Fills (replayDelayedReleaseState st) [] := by
  unfold replayDelayedReleaseState
  split
  · exact fills_ret _
  refine .some (.after (?_ : Fills _ []))
  split
  · exact .some (.after <| .after <| .after <| fills_ret _)
  · exact .some (.after <| .after <| .after <| fills_ret _)
  · split
    · exact .some (.after <| fills_ret _)
    · exact .some (.after <| fills_ret _)
  · exact fills_ret _

end Fills

end Inside

/-! ### Steps that change the count -/

section Moves

variable {s : Site} {γ : Location → Ghost} {l : Location}

/-- Nobody is inside an object that nobody has a reference to. -/
theorem Inv.of_zero (hi : Inv s γ) (h0 : s.shm.isInited = 0) : s.inside = [] ∧ outstanding s = [] := by
  constructor
  · by_contra hne
    have := hi.neg.mpr hne
    omega
  · have := hi.count (by omega)
    exact List.eq_nil_of_length_eq_zero (by omega)

/-- An initialisation begins. -/
theorem Inv.begin (hi : Inv s γ) (hγ : γ l = .idle) (h0 : s.shm.isInited = 0) {v : ℤ} (hv : v < 0) :
    Inv (s.enter l v) (Function.update γ l (.initialising [])) := by
  obtain ⟨hin, hout⟩ := hi.of_zero h0
  have hnone : ∀ u, u ≠ l → ¬ (Function.update γ l (.initialising []) u).Inside := by
    intro u hul hu
    rw [Function.update_of_ne hul] at hu
    have hmem := (hi.inside.mem u).mpr hu
    simp [hin] at hmem
  refine ⟨hi.inside.push ?_ trivial, hi.entering.same ?_, hi.leaving.same ?_, ?_, ?_, ?_, ?_, ?_,
    fun u hu => ?_, fun u fs hu => ?_⟩
  · simp [hγ]
  · simp [hγ]
  · simp [hγ]
  · simp [Site.enter, hin]
  · exact ⟨fun _ => by simp [Site.enter], fun _ => hv⟩
  · exact fun _ => hout
  · intro hv'
    exact absurd hv' (not_le.mpr hv)
  · exact fun hne => absurd hout hne
  · by_cases hul : u = l
    · subst hul
      simp at hu
    · exact absurd (by rw [hu]; trivial) (hnone u hul)
  · by_cases hul : u = l
    · subst hul
      obtain rfl : [] = fs := by simpa using hu
      simp
    · exact absurd (by rw [hu]; trivial) (hnone u hul)

/-- One more reference. -/
theorem Inv.enter (hi : Inv s γ) (hγ : γ l = .idle) (hpos : 0 < s.shm.isInited) :
    Inv { isInited.set (s.shm.isInited + 1) s with entering := l :: s.entering }
      (Function.update γ l .entering) := by
  have hcount := hi.count hpos.le
  have hin : s.inside = [] := by
    by_contra hne
    have := hi.neg.mpr hne
    omega
  have hready := hi.ready fun hnil => by rw [hnil] at hcount; simp at hcount; omega
  refine ⟨hi.inside.same ?_, hi.entering.push ?_ rfl, hi.leaving.same ?_, hi.one, ?_, ?_, ?_,
    fun _ => hready, fun _ _ => hready, hi.noted_update (fun _ h => h) (by simp)⟩
  · simp [hγ]
  · simp [hγ]
  · simp [hγ]
  · show s.shm.isInited + 1 < 0 ↔ s.inside ≠ []
    simp [hin]
    omega
  · exact fun hne => absurd hin hne
  · intro _
    show s.shm.isInited + 1 = _
    simp [outstanding, isInited, shmField] at hcount ⊢
    omega

/-- The creator publishes the lock with its own reference. -/
theorem Inv.publishCreate (hi : Inv s γ) {fs : List Field} (hγ : γ l = .initialising fs)
    (hfs : ∀ f ∈ fields, f ∈ fs) :
    Inv { isInited.set 1 s with
        inside := s.inside.erase l, entering := l :: s.entering, ready := true }
      (Function.update γ l .entering) := by
  obtain ⟨-, hin, -, hout⟩ := hi.own_inside (l := l) (by rw [hγ]; trivial)
  have hall : ∀ f ∈ fields, f ∈ s.written := fun f hf => hi.noted l fs hγ f (hfs f hf)
  refine ⟨hi.inside.drop ?_, hi.entering.push ?_ rfl, hi.leaving.same ?_, ?_, ?_, ?_, ?_,
    fun _ => ⟨rfl, hall⟩, fun _ _ => ⟨rfl, hall⟩, hi.noted_update (fun _ h => h) (by simp)⟩
  · simp
  · simp [hγ]
  · simp [hγ]
  · simp [hin]
  · simp [hin, isInited, shmField]
  · simp [hin]
  · intro _
    have hnil : s.entering = [] ∧ s.leaving = [] ∧ s.granted = [] ∧ s.refs = [] := by
      simpa [outstanding, and_assoc] using hout
    simp [outstanding, hnil, isInited, shmField]

/-- References move between the kinds, the number stays. -/
theorem Inv.reassign (hi : Inv s γ) {s' : Site} {g : Ghost} (hin : s'.inside = s.inside)
    (hinited : s'.shm.isInited = s.shm.isInited) (hready : s'.ready = s.ready)
    (hwritten : s'.written = s.written) (hg : g = .idle ∨ g = .leaving) (hold : ¬ (γ l).Inside)
    (hent : Tracks s'.entering (Function.update γ l g) (· = .entering))
    (hlea : Tracks s'.leaving (Function.update γ l g) (· = .leaving))
    (hlen : (outstanding s').length = (outstanding s).length) :
    Inv s' (Function.update γ l g) := by
  have hnew : ¬ g.Inside := by rcases hg with rfl | rfl <;> simp
  have hnil : outstanding s' = [] ↔ outstanding s = [] := by
    rw [← List.length_eq_zero_iff, hlen, List.length_eq_zero_iff]
  have hinit : Initialised s' ↔ Initialised s := by rw [Initialised, hready, hwritten, Initialised]
  refine ⟨?_, hent, hlea, ?_, ?_, ?_, ?_, ?_, fun u hu => ?_, ?_⟩
  · rw [hin]
    exact hi.inside.same ⟨fun h => absurd h hnew, fun h => absurd h hold⟩
  · rw [hin]
    exact hi.one
  · rw [hinited, hin]
    exact hi.neg
  · rw [hin, hnil]
    exact hi.alone
  · rw [hinited, hlen]
    exact hi.count
  · rw [hinit, Ne, hnil]
    exact hi.ready
  · have hul : u ≠ l := by
      rintro rfl
      rw [Function.update_self] at hu
      exact hnew (by rw [hu]; trivial)
    rw [Function.update_of_ne hul] at hu
    exact hinit.mpr (hi.built u hu)
  · refine hi.noted_update (by rw [hwritten]; exact fun _ h => h) ?_
    rintro fs rfl
    exact absurd trivial hnew

/-- A reference is given up. -/
theorem Inv.drop (hi : Inv s γ) (hγ : γ l = .leaving) {s' : Site}
    (hs' : s' = { isInited.set (s.shm.isInited - 1) s with leaving := s.leaving.erase l }) :
    Inv s' (Function.update γ l .idle) := by
  subst hs'
  have hmem : l ∈ s.leaving := (hi.leaving.mem l).mpr hγ
  have hout : outstanding s ≠ [] := by
    simp [outstanding, List.ne_nil_of_mem hmem]
  have hin : s.inside = [] := by
    by_contra hne
    exact hout (hi.alone hne)
  have hpos : 0 ≤ s.shm.isInited := by
    by_contra hneg
    exact hi.neg.mp (not_le.mp hneg) hin
  have hcount := hi.count hpos
  have hlen : (outstanding s).length ≠ 0 := by simpa using hout
  have hready := hi.ready hout
  refine ⟨hi.inside.same ?_, hi.entering.same ?_, hi.leaving.drop (by simp), hi.one, ?_, ?_, ?_,
    fun _ => hready, fun _ _ => hready, hi.noted_update (fun _ h => h) (by simp)⟩
  · simp [hγ]
  · simp [hγ]
  · show s.shm.isInited - 1 < 0 ↔ s.inside ≠ []
    simp [hin]
    omega
  · exact fun hne => absurd hin hne
  · intro _
    show s.shm.isInited - 1 = _
    have hpos' := List.length_pos_of_mem hmem
    simp [outstanding, isInited, shmField, List.length_erase_of_mem hmem] at hcount ⊢
    omega

/-- While a reference is being given back the count is positive. -/
theorem Inv.pos_of_leaving (hi : Inv s γ) (hγ : γ l = .leaving) : 0 < s.shm.isInited := by
  have hmem : l ∈ s.leaving := (hi.leaving.mem l).mpr hγ
  have hout : outstanding s ≠ [] := by simp [outstanding, List.ne_nil_of_mem hmem]
  have hpos : 0 ≤ s.shm.isInited := by
    by_contra hneg
    exact hout (hi.alone (hi.neg.mp (not_le.mp hneg)))
  have hcount := hi.count hpos
  have hlen := List.length_pos_iff.mpr hout
  omega

/-- All fields are there. -/
theorem Inv.fieldsDone (hi : Inv s γ) {fs : List Field} (hγ : γ l = .initialising fs)
    (hfs : ∀ f ∈ fields, f ∈ fs) {s' : Site} (hs' : SameLife { s with ready := true } s') :
    Inv s' (Function.update γ l .built) := by
  refine Inv.same ?_ hs'
  have hall : ∀ f ∈ fields, f ∈ s.written := fun f hf => hi.noted l fs hγ f (hfs f hf)
  refine ⟨hi.inside.same ?_, hi.entering.same ?_, hi.leaving.same ?_, hi.one, hi.neg, hi.alone, hi.count,
    fun _ => ⟨rfl, hall⟩, fun _ _ => ⟨rfl, hall⟩, hi.noted_update (fun _ h => h) (by simp)⟩
  · simp [hγ]
  · simp [hγ]
  · simp [hγ]

/-- The rebuilding party publishes the lock with the references of `nodes`, or with none. -/
theorem Inv.publishRebuild (hi : Inv s γ) (hγ : γ l = .built) {refs granted : List NodeId} {n : ℕ}
    (hn : refs.length + granted.length = n) :
    Inv { isInited.set n s with
        inside := s.inside.erase l, refs := refs ++ s.refs, granted := granted ++ s.granted }
      (Function.update γ l .idle) := by
  obtain ⟨-, hin, -, hout⟩ := hi.own_inside (l := l) (by rw [hγ]; trivial)
  have hready := hi.built l hγ
  refine ⟨hi.inside.drop ?_, hi.entering.same ?_, hi.leaving.same ?_, ?_, ?_, ?_, ?_, fun _ => hready,
    fun _ _ => hready, hi.noted_update (fun _ h => h) (by simp)⟩
  · simp
  · simp [hγ]
  · simp [hγ]
  · simp [hin]
  · simp [hin, isInited, shmField]
  · simp [hin]
  · intro _
    have hnil : s.entering = [] ∧ s.leaving = [] ∧ s.granted = [] ∧ s.refs = [] := by
      simpa [outstanding, and_assoc] using hout
    simp [outstanding, hnil, isInited, shmField]
    omega

end Moves

/-! ### Calls -/

section Calls

variable {l : Location}

/-- A party with a reference finds the fields written. -/
theorem Inv.ready_of_entering {s : Site} {γ : Location → Ghost} (hi : Inv s γ) (hγ : γ l = .entering) :
    Initialised s := by
  refine hi.ready ?_
  have hmem : l ∈ s.entering := (hi.entering.mem l).mpr hγ
  simp [outstanding, List.ne_nil_of_mem hmem]

theorem wp_beginCreate {state : ℤ} (hstate : 0 ≤ state) :
    Does l (beginCreate l state)
      (fun begun g => (begun.1 = true → g = if state = 0 then .initialising [] else .entering) ∧
        (begun.1 = false → g = .idle)) .idle := by
  refine ⟨trivial, fun s γ hpre => ⟨trivial, fun c s' b hf => ?_⟩⟩
  dsimp only at hf
  split at hf
  · rename_i hc
    obtain ⟨rfl, -⟩ := hc
    split at hf
    · rename_i h0
      cases hf
      refine ⟨.initialising [], trivial, hpre.inv.begin hpre.own h0 (by decide), trivial, ?_, by simp⟩
      simp [h0]
    · rename_i h0
      cases hf
      refine ⟨.entering, trivial, hpre.inv.enter hpre.own (by omega), trivial, ?_, by simp⟩
      simp [h0]
  · cases hf
    refine ⟨.idle, trivial, ?_, trivial, by simp, fun _ => rfl⟩
    rw [hpre.update]
    exact hpre.inv

/-- Where a creator stands after its loop. -/
def begunAs : Option Bool → Ghost
  | none => .idle
  | some true => .initialising []
  | some false => .entering

theorem wp_createRound (st : ℕ × ℤ) :
    Does l (createRound l st)
      (fun r g => Sum.elim (fun _ => g = .idle) (fun begun => g = begunAs begun) r) .idle := by
  unfold createRound
  split
  · split
    · exact ⟨trivial, rfl⟩
    · exact (plain_load _).wp_bind (stable_step l _) fun _ => ⟨trivial, rfl⟩
  split
  · exact ⟨trivial, rfl⟩
  rename_i hneg
  refine wp_bind (wp_mono (wp_beginCreate (by omega)) ?_)
  rintro begun g - ⟨htrue, hfalse⟩
  split
  · rename_i hb
    refine ⟨trivial, ?_⟩
    by_cases h0 : st.2 = 0
    · simpa [h0, begunAs] using htrue hb
    · simpa [h0, begunAs] using htrue hb
  · exact ⟨trivial, hfalse (eq_false_of_ne_true ‹_›)⟩

theorem wp_publishCreate {fs : List Field} (hfs : ∀ f ∈ fields, f ∈ fs) :
    Does l (publishCreate l) (fun _ g => g = .entering) (.initialising fs) := by
  refine ⟨trivial, fun s γ hpre => ?_⟩
  obtain ⟨hmem, -, -, hout⟩ := hpre.inv.own_inside (l := l) (by rw [hpre.own]; trivial)
  refine ⟨⟨hmem, hout⟩, fun c s' b hf => ?_⟩
  cases hf
  exact ⟨.entering, trivial, hpre.inv.publishCreate hpre.own hfs, trivial, rfl⟩

theorem wp_enterRegistry : Does l (enterRegistry l) (fun _ g => g = .idle) .entering := by
  refine ⟨trivial, fun s γ hpre => ⟨hpre.inv.ready_of_entering hpre.own, fun c s' b hf => ?_⟩⟩
  cases hf
  have hi : Inv s γ := hpre.inv
  have hγ : γ l = .entering := hpre.own
  have hmem : l ∈ s.entering := (hi.entering.mem l).mpr hγ
  refine ⟨.idle, trivial, hi.reassign rfl rfl rfl rfl (.inl rfl) ?_ (hi.entering.drop (by simp))
    (hi.leaving.same ?_) ?_, trivial, rfl⟩
  · simp [hγ]
  · simp [hγ]
  · have := List.length_pos_of_mem hmem
    simp [outstanding, nodeRegistry, shmField, List.length_erase_of_mem hmem]
    omega

theorem wp_lockCreate : Does l (lockCreate l) (fun _ g => g = .idle) .idle := by
  unfold lockCreate
  split
  · exact ⟨trivial, rfl⟩
  refine (plain_load _).wp_bind (stable_step l _) fun state => ?_
  refine wp_bind (wp_mono (Q := fun begun g => g = begunAs begun) ?_ ?_)
  · refine wp_loop (fun _ g => g = .idle) trivial rfl ?_
    rintro st _ rfl
    exact wp_createRound st
  rintro (_ | first) g - hg
  · exact ⟨trivial, hg⟩
  have hfirst : Does l (if first = true then do initFields; publishCreate l else pure ())
      (fun _ g => g = .entering) g := by
    cases first with
    | true =>
      subst hg
      refine wp_bind (wp_mono (fills_initFields l []) ?_)
      rintro _ _ - ⟨fs, rfl, -, hfs⟩
      exact wp_publishCreate hfs
    | false => exact ⟨trivial, hg⟩
  refine wp_bind (wp_mono hfirst ?_)
  rintro _ _ - rfl
  refine (plain_load _).wp_bind (stable_step l _) fun bound => ?_
  split
  · refine wp_bind (wp_store trivial fun s γ hpre =>
      ⟨hpre.inv.ready_of_entering hpre.own, .entering, trivial, ?_, trivial, wp_enterRegistry⟩)
    rw [hpre.update]
    exact hpre.inv.same (offCount_newBound _ _ _)
  · exact wp_enterRegistry

theorem wp_dropReference (cur : ℤ) :
    Does l (dropReference l cur)
      (fun dropped g => (dropped.1 = true → g = .idle) ∧
        (dropped.1 = false → g = .leaving ∧ 0 < dropped.2)) .leaving := by
  refine ⟨trivial, fun s γ hpre => ⟨trivial, fun c s' b hf => ?_⟩⟩
  have hi : Inv s γ := hpre.inv
  dsimp only at hf
  split at hf
  · rename_i hc
    obtain ⟨rfl, -⟩ := hc
    cases hf
    exact ⟨.idle, trivial, hi.drop hpre.own rfl, trivial, by simp, by simp⟩
  · cases hf
    refine ⟨.leaving, trivial, ?_, trivial, by simp, fun _ => ⟨rfl, hi.pos_of_leaving hpre.own⟩⟩
    rw [hpre.update]
    exact hi

theorem wp_beginFree :
    Does l (beginFree l) (fun cur g => g = .leaving ∧ 0 < cur) .idle := by
  refine ⟨trivial, fun s γ hpre => ⟨trivial, fun c s' b hf => ?_⟩⟩
  have hi : Inv s γ := hpre.inv
  have hγ : γ l = .idle := hpre.own
  obtain ⟨ℓ, -, hmem⟩ := hpre.run
  have hmem : l.nodeId ∈ s.refs := hmem
  have hmove : Inv { s with refs := s.refs.erase l.nodeId, leaving := l :: s.leaving }
      (Function.update γ l .leaving) := by
    refine hi.reassign rfl rfl rfl rfl (.inr rfl) ?_ (hi.entering.same ?_) (hi.leaving.push ?_ rfl) ?_
    · simp [hγ]
    · simp [hγ]
    · simp [hγ]
    · have := List.length_pos_of_mem hmem
      simp only [outstanding, List.length_append, List.length_map, List.length_cons,
        List.length_erase_of_mem hmem]
      omega
  dsimp only at hf
  rw [if_pos hmem] at hf
  cases hf
  have hpos := hmove.pos_of_leaving (Function.update_self l _ γ)
  exact ⟨.leaving, trivial, hmove, trivial, rfl, hpos⟩

theorem wp_lockFree : Does l (lockFree l) (fun _ g => g = .idle) .idle := by
  unfold lockFree
  split
  · exact ⟨trivial, rfl⟩
  refine wp_bind (wp_mono wp_beginFree ?_)
  rintro cur _ - ⟨rfl, hcur⟩
  rw [if_neg (by omega)]
  refine ((offCount_nodeRegistry _).store _).wp_bind (stable_step l _) fun _ => ?_
  refine ((offCount_newBound _).store _).wp_bind (stable_step l _) fun _ => ?_
  refine wp_loop (fun cur g => g = .leaving ∧ 0 < cur) trivial ⟨rfl, hcur⟩ ?_
  rintro cur _ ⟨rfl, hcur⟩
  rw [if_pos hcur]
  refine wp_bind (wp_mono (wp_dropReference cur) ?_)
  rintro dropped g - ⟨htrue, hfalse⟩
  split
  · exact ⟨trivial, htrue ‹_›⟩
  · exact ⟨trivial, hfalse (eq_false_of_ne_true ‹_›)⟩

/-! ### rebuild -/

theorem wp_tryBegin :
    Does l (tryBeginSharedRebuildInit l) (fun doInit g => g = if doInit then .initialising [] else .idle)
      .idle := by
  refine ⟨trivial, fun s γ hpre => ⟨trivial, fun c s' b hf => ?_⟩⟩
  dsimp only at hf
  split at hf
  · rename_i h0
    cases hf
    exact ⟨.initialising [], trivial, hpre.inv.begin hpre.own h0 (by decide), trivial, rfl⟩
  · cases hf
    refine ⟨.idle, trivial, ?_, trivial, rfl⟩
    rw [hpre.update]
    exact hpre.inv

theorem wp_rebuildFields (st : Scan) :
    Does l (rebuildFields st) (fun _ g => g = .built) (.initialising []) := by
  refine wp_bind (wp_mono (fills_clearNodeRegistry allNodes l []) ?_)
  rintro _ _ - ⟨fs₁, rfl, -, hnodes⟩
  refine wp_bind (wp_mono (fills_reset l fs₁) ?_)
  rintro _ _ - ⟨fs₂, rfl, h₁, hlock⟩
  refine wp_bind (wp_mono (fills_putHolder st l fs₂) ?_)
  rintro _ _ - ⟨fs₃, rfl, h₂, -⟩
  refine wp_bind (wp_mono (fills_replay st l fs₃) ?_)
  rintro b _ - ⟨fs, rfl, h₃, -⟩
  have hfs : ∀ f ∈ fields, f ∈ fs := fun f hf => h₃ f <| h₂ f <|
    (List.mem_append.mp hf).elim (hlock f) fun hf => h₁ f (hnodes f hf)
  refine ⟨trivial, fun s γ hpre => ?_⟩
  obtain ⟨hmem, -, -, hout⟩ := hpre.inv.own_inside (l := l) (by rw [hpre.own]; trivial)
  refine ⟨⟨hmem, hout⟩, fun c s' b hf => ?_⟩
  cases hf
  exact ⟨.built, trivial, hpre.inv.fieldsDone hpre.own hfs
    ⟨rfl, rfl, rfl, rfl, rfl, rfl, rfl, fun _ h => List.mem_cons_of_mem _ h⟩, trivial, rfl⟩

/-- Binding the local lock, at a step whose claim is known. -/
theorem wp_switch {e : Label} {n : NodeId} {same : Bool} {g : Ghost}
    (hclaim : ∀ s γ, outline.Pre l e g s γ → Claim l e s) :
    Does l (switchLocalLockBinding e n same) (fun _ g' => g' = g) g := by
  refine ⟨trivial, fun s γ hpre => ⟨hclaim s γ hpre, fun c s' b hf => ⟨g, trivial, ?_, trivial, rfl⟩⟩⟩
  rw [hpre.update]
  refine hpre.inv.same ?_
  dsimp only at hf
  split at hf
  · cases hf
    rfl
  · split at hf
    · cases hf
      exact ⟨rfl, rfl, rfl, rfl, rfl, rfl, rfl, fun _ h => h⟩
    · cases hf
      rfl

theorem wp_rebuildInit {same : Bool} {results : List QueryResult} {st : Scan}
    (hl : l.nodeId ∈ results.map (·.nodeId)) :
    Does l (rebuildInit l same results st) (fun _ g => g = .idle) (.initialising []) := by
  have hready : ∀ s γ, outline.Pre l (.register l.nodeId) .built s γ →
      Claim l (.register l.nodeId) s := fun s γ hpre => hpre.inv.built l hpre.own
  refine wp_bind (wp_mono (wp_rebuildFields st) ?_)
  rintro _ _ - rfl
  refine wp_bind (wp_mono (wp_switch hready) ?_)
  rintro bound _ - rfl
  split
  · refine wp_bind (p := abandonRebuild l) ⟨trivial, fun s γ hpre => ?_⟩
    obtain ⟨hmem, -, -, hout⟩ := hpre.inv.own_inside (l := l) (by rw [hpre.own]; trivial)
    refine ⟨⟨hmem, hout⟩, fun c s' b hf => ?_⟩
    cases hf
    have hlen : ([] : List NodeId).length + ([] : List NodeId).length = 0 := rfl
    have := hpre.inv.publishRebuild hpre.own hlen
    exact ⟨.idle, trivial, this, trivial, trivial, rfl⟩
  refine wp_bind (wp_store trivial fun s γ hpre =>
    ⟨hready s γ hpre, .built, trivial, ?_, trivial, ?_⟩)
  · rw [hpre.update]
    exact hpre.inv.same (offCount_nodeRegistry _ _ _)
  refine wp_bind (p := publishRebuild l results) ⟨trivial, fun s γ hpre => ?_⟩
  obtain ⟨hmem, -, -, hout⟩ := hpre.inv.own_inside (l := l) (by rw [hpre.own]; trivial)
  refine ⟨⟨hmem, hout⟩, fun c s' b hf => ?_⟩
  cases hf
  have hlen : [l.nodeId].length + ((results.map (·.nodeId)).erase l.nodeId).length = results.length := by
    have := List.length_pos_of_mem hl
    rw [List.length_erase_of_mem hl]
    simp only [List.length_map, List.length_singleton] at this ⊢
    omega
  exact ⟨.idle, trivial, hpre.inv.publishRebuild hpre.own hlen, trivial, trivial, rfl⟩

theorem wp_rebuildFollow {same : Bool} :
    Does l (rebuildFollow l same) (fun _ g => g = .idle) .idle := by
  have hready : ∀ s γ, outline.Pre l (.follow l.nodeId) .idle s γ → Claim l (.follow l.nodeId) s := by
    intro s γ hpre
    obtain ⟨ℓ, -, hmem⟩ := hpre.run
    exact hpre.inv.ready (List.ne_nil_of_mem hmem)
  have hwait : Plain waitSharedRebuildInitDone :=
    .loop fun _ => (plain_load _).bind fun _ => trivial
  refine hwait.wp_bind (stable_step l _) fun _ => (plain_load _).wp_bind (stable_step l _) fun state => ?_
  split
  · exact ⟨trivial, rfl⟩
  refine wp_bind (wp_mono (wp_switch hready) ?_)
  rintro bound _ - rfl
  split
  · exact ⟨trivial, rfl⟩
  refine wp_bind (p := followRegistry l.nodeId) ⟨trivial, fun s γ hpre =>
    ⟨hready s γ hpre, fun c s' b hf => ⟨.idle, trivial, ?_, trivial, trivial, rfl⟩⟩⟩
  have hi : Inv s γ := hpre.inv
  have hγ : γ l = .idle := hpre.own
  cases hf
  split
  · rename_i hmem
    have hmem : l.nodeId ∈ s.granted := hmem
    refine hi.reassign rfl rfl rfl rfl (.inl rfl) ?_ (hi.entering.same ?_) (hi.leaving.same ?_) ?_
    · simp [hγ]
    · simp [hγ]
    · simp [hγ]
    · have := List.length_pos_of_mem hmem
      simp [outstanding, nodeRegistry, shmField, List.length_erase_of_mem hmem]
      omega
  · rw [hpre.update]
    exact hi.same (offCount_nodeRegistry _ _ _)

/-- What passes the checks has an entry for the caller's node. -/
theorem mem_of_validate {n : NodeId} {results : List QueryResult} {st : Scan}
    (h : validate n results = some st) : n ∈ results.map (·.nodeId) := by
  unfold validate at h
  split at h
  · cases h
  split at h
  · cases h
  rename_i hfind
  obtain ⟨e, hmem, hn⟩ : ∃ e ∈ results, e.nodeId = n := by simpa using hfind
  exact List.mem_map.mpr ⟨e, hmem, hn⟩

theorem wp_rebuild {same : Bool} {results : List QueryResult} :
    Does l (rebuild l same results) (fun _ g => g = .idle) .idle := by
  unfold rebuild
  cases hv : validate l.nodeId results with
  | none => exact ⟨trivial, rfl⟩
  | some st =>
    have hlookup : Plain (lookupOld l.nodeId same) := .ite (plain_load _) (plain_load _)
    refine hlookup.wp_bind (stable_step l _) fun old => ?_
    split
    · exact ⟨trivial, rfl⟩
    refine wp_bind (wp_mono wp_tryBegin ?_)
    rintro (_ | _) _ - rfl
    · exact wp_rebuildFollow
    · exact wp_rebuildInit (mem_of_validate hv)

end Calls

/-! ### Every run -/

inductive Op where
  | create
  | free
  | rebuild (same : Bool) (results : List QueryResult)

def code (l : Location) : Op → Call Result
  | .create => do
    lockCreate l
    return .success
  | .free => do
    lockFree l
    return .success
  | .rebuild same results => rebuild l same results

def client : Client Location Site Label Op Result Unit where
  code := code
  allowed := fun _ _ _ => true
  start := fun h _ => h
  finish := fun h _ _ => h

abbrev Run := Config Location Site Label Op Result Unit

def start : Run := ⟨.init, fun _ => (), fun _ => none⟩

def spec : Spec Location Site Label Op Result Unit Ghost where
  toOutline := outline
  rest := fun _ _ g => g = .idle
  moves := fun _ _ _ _ => True
  good := fun _ _ _ _ => True

theorem proved : spec.Proved client where
  stay := fun _ _ _ _ _ => trivial
  idle := fun _ _ _ _ => ⟨trivial, trivial⟩
  start := fun _ _ _ _ _ _ => trivial
  call := by
    rintro l - op _ - rfl
    cases op with
    | create =>
      refine wp_bind (wp_mono wp_lockCreate ?_)
      rintro _ _ - rfl
      exact ⟨trivial, trivial, rfl⟩
    | free =>
      refine wp_bind (wp_mono wp_lockFree ?_)
      rintro _ _ - rfl
      exact ⟨trivial, trivial, rfl⟩
    | rebuild same results =>
      refine wp_mono wp_rebuild ?_
      rintro _ _ - rfl
      exact ⟨trivial, rfl⟩

theorem holds_start : spec.Holds client start fun _ => .idle where
  inv := by
    refine ⟨⟨?_, List.nodup_nil⟩, ⟨?_, List.nodup_nil⟩, ⟨?_, List.nodup_nil⟩, ?_, ?_, ?_, ?_, ?_, ?_,
      ?_⟩ <;> simp [start, Site.init, UbRwLock.zeroed, outstanding]
  moved := fun _ => ⟨.idle, trivial⟩
  idle := fun _ _ => rfl
  busy := by simp [start]

/-- In every lawful run at most one party is inside an initialisation, and `is_inited` is negative
    exactly then; an initialiser's stores happen while no reference is outstanding; whoever
    registers finds all fields written; and a count that is not negative is the number of
    outstanding references. -/
theorem initialisation_of_lawful {x : Run} (hx : Config.Reach client Lawful start x) :
    (x.mem.inside.length ≤ 1 ∧ (x.mem.shm.isInited < 0 ↔ x.mem.inside ≠ [])) ∧
    (∀ l, x.labels l = some .init → l ∈ x.mem.inside ∧ outstanding x.mem = []) ∧
    (∀ l n, x.Meets Lawful l → x.labels l = some (.register n) ∨ x.labels l = some (.follow n) →
      Initialised x.mem) ∧
    (0 ≤ x.mem.shm.isInited → x.mem.shm.isInited = (outstanding x.mem).length) := by
  obtain ⟨γ, h⟩ := proved.sound holds_start hx
  have hi : Inv x.mem γ := h.inv
  refine ⟨⟨hi.one, hi.neg⟩, fun l hl => ?_, fun l n hmeets hl => ?_, hi.count⟩
  · have hmeets : x.Meets spec.cond l := by
      intro e he
      rw [hl] at he
      cases he
      trivial
    exact proved.claims holds_start hx hmeets hl
  · rcases hl with hl | hl
    · exact proved.claims holds_start hx hmeets hl
    · exact proved.claims holds_start hx hmeets hl

/-- Only the references that were obtained are freed. -/
def FreesOwn (_ : Location → Option Label) (_ : Location) : Label → Site → Prop
  | .free n, s => n ∈ s.refs
  | _, _ => True

/-- Whether the step `l` stands before frees, or follows with, a reference of its node. -/
def lawfulHere (x : Run) (l : Location) : Bool :=
  match x.labels l with
  | some (.free n) => x.mem.refs.contains n
  | some (.follow n) => (outstanding x.mem).contains n
  | _ => true

theorem meets_of_lawfulHere (x : Run) (l : Location) (h : lawfulHere x l = true) :
    x.Meets Lawful l := by
  intro e he
  rw [lawfulHere, he] at h
  cases e with
  | free n =>
    exact List.contains_iff_mem.mp h
  | follow n =>
    exact List.contains_iff_mem.mp h
  | _ => trivial

def freesOwnHere (x : Run) (l : Location) : Bool :=
  match x.labels l with
  | some (.free n) => x.mem.refs.contains n
  | _ => true

theorem meets_of_freesOwnHere (x : Run) (l : Location) (h : freesOwnHere x l = true) :
    x.Meets FreesOwn l := by
  intro e he
  rw [freesOwnHere, he] at h
  cases e with
  | free n =>
    exact List.contains_iff_mem.mp h
  | _ => trivial

/-- The query results of two nodes that hold nothing. -/
def quietResults : List QueryResult := [⟨0, .i, 0, 0, false, .i⟩, ⟨1, .i, 0, 0, false, .i⟩]

/-- Node 0 rebuilds, node 1 follows. -/
theorem initialisation_of_lawful_followed :
    ∃ x, Config.Reach client Lawful start x ∧ x.labels ⟨1, 1⟩ = some (.follow 1) ∧
      x.mem.shm.isInited = 2 ∧ Initialised x.mem := by
  have hrun : ∃ x, Config.Reach client Lawful start x ∧ lawfulHere x ⟨1, 1⟩ = true ∧
      x.labels ⟨1, 1⟩ = some (.follow 1) ∧ x.mem.shm.isInited = 2 :=
    Config.reach_of_runAll meets_of_lawfulHere
      [.call ⟨1, 0⟩ (.rebuild false quietResults), .finish ⟨1, 0⟩,
        .call ⟨1, 1⟩ (.rebuild false quietResults), .upTo ⟨1, 1⟩ (.follow 1)] (by decide +kernel)
  obtain ⟨x, hx, hlawful, hlabel, htwo⟩ := hrun
  exact ⟨x, hx, hlabel, htwo,
    (initialisation_of_lawful hx).2.2.1 ⟨1, 1⟩ 1 (meets_of_lawfulHere x _ hlawful) (.inr hlabel)⟩

/-- Node 1 rebuilds into a lock that node 0 has created, and finds it ready. Node 0 frees its
    reference, node 2 creates the lock anew. Node 1 registers while node 2 initialises. -/
theorem follower_violated :
    ∃ x, Config.Reach client FreesOwn start x ∧ x.labels ⟨1, 1⟩ = some (.follow 1) ∧
      x.mem.inside = [⟨1, 2⟩] ∧ x.mem.shm.isInited < 0 ∧ x.mem.written = [] :=
  Config.reach_of_runAll meets_of_freesOwnHere
    [.call ⟨1, 0⟩ .create, .finish ⟨1, 0⟩,
      .call ⟨1, 1⟩ (.rebuild false quietResults), .upTo ⟨1, 1⟩ (.follow 1),
      .call ⟨1, 0⟩ .free, .finish ⟨1, 0⟩,
      .call ⟨1, 2⟩ .create, .upTo ⟨1, 2⟩ .init] (by decide +kernel)

end Lifecycle

end UbsAtomic
