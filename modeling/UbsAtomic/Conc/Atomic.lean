import UbsAtomic.Conc.Prog

/-! The atomic operations that programs are made of, over one place of the memory.

    A `Place` says where a variable lives: how to read it out of the memory and how to write it
    back. Every operation here is one atomic step; the plain ones carry the label `default`, the
    ones ending in `At` the label they are given. -/

namespace Conc

/-- A variable of type `α` inside a memory of type `σ`. -/
structure Place (σ α : Type) where
  get : σ → α
  set : α → σ → σ

namespace Place

variable {σ α β : Type}

/-- A variable inside a variable. -/
def comp (p : Place σ α) (q : Place α β) : Place σ β where
  get s := q.get (p.get s)
  set v s := p.set (q.set v (p.get s)) s

@[simp] theorem comp_get (p : Place σ α) (q : Place α β) (s : σ) :
    (p.comp q).get s = q.get (p.get s) := rfl

@[simp] theorem comp_set (p : Place σ α) (q : Place α β) (v : β) (s : σ) :
    (p.comp q).set v s = p.set (q.set v (p.get s)) s := rfl

/-- What was written is read, and only the last write counts. -/
structure Lawful (p : Place σ α) : Prop where
  get_set : ∀ v s, p.get (p.set v s) = v
  set_set : ∀ v w s, p.set v (p.set w s) = p.set v s
  set_get : ∀ s, p.set (p.get s) s = s

/-- One cell of an indexed family. -/
def cell {κ : Type} [DecidableEq κ] (k : κ) : Place (κ → α) α where
  get f := f k
  set v f := Function.update f k v

@[simp] theorem cell_get {κ : Type} [DecidableEq κ] (k : κ) (f : κ → α) :
    (cell k).get f = f k := rfl

@[simp] theorem cell_set {κ : Type} [DecidableEq κ] (k : κ) (v : α) (f : κ → α) :
    (cell k).set v f = Function.update f k v := rfl

end Place

namespace Prog

variable {σ ε α : Type}

/-- A program over one part of the memory, as a program over all of it; every step is labelled `e`. -/
def within {τ ε' : Type} (p : Place τ σ) (e : ε') : {α : Type} → Prog σ ε α → Prog τ ε' α
  | _, .ret a => .ret a
  | _, .act _ f k =>
    .act e (fun s c => (f (p.get s) c).map fun r => (p.set r.1 s, r.2)) fun b => within p e (k b)
  | _, .iter body i k => .iter (fun j => within p e (body j)) i fun b => within p e (k b)

/-- Any read-modify-write step: `f` gives the new value and what the program learns. -/
def rmwAt {β : Type} (e : ε) (p : Place σ α) (f : α → α × β) : Prog σ ε β :=
  .act e (fun s _ => some (p.set (f (p.get s)).1 s, (f (p.get s)).2)) .ret

/-- Atomic load. -/
def loadAt (e : ε) (p : Place σ α) : Prog σ ε α :=
  .act e (fun s _ => some (s, p.get s)) .ret

/-- Atomic store. -/
def storeAt (e : ε) (p : Place σ α) (v : α) : Prog σ ε Unit :=
  .act e (fun s _ => some (p.set v s, ())) .ret

/-- Atomic `compare_exchange_strong`: whether it succeeded, and the value it saw. -/
def casAt [DecidableEq α] (e : ε) (p : Place σ α) (expected desired : α) : Prog σ ε (Bool × α) :=
  .act e (fun s _ =>
    if p.get s = expected then some (p.set desired s, (true, expected))
    else some (s, (false, p.get s))) .ret

/-- Atomic `compare_exchange_weak`: with a choice other than `0` it fails for no reason. -/
def casWeakAt [DecidableEq α] (e : ε) (p : Place σ α) (expected desired : α) :
    Prog σ ε (Bool × α) :=
  .act e (fun s c =>
    if p.get s = expected ∧ c = 0 then some (p.set desired s, (true, expected))
    else some (s, (false, p.get s))) .ret

/-- What the surroundings decide, such as whether a deadline has passed. -/
def chooseAt (e : ε) : Prog σ ε ℕ := .act e (fun s c => some (s, c)) .ret

section
variable [Inhabited ε]

def load (p : Place σ α) : Prog σ ε α := loadAt default p

def store (p : Place σ α) (v : α) : Prog σ ε Unit := storeAt default p v

/-- Atomic `exchange`. -/
def exchange (p : Place σ α) (v : α) : Prog σ ε α := rmwAt default p fun old => (v, old)

/-- Atomic `fetch_add`, `fetch_sub`, `fetch_or` or `fetch_and`: the old value comes back. -/
def fetch (p : Place σ α) (f : α → α) : Prog σ ε α := rmwAt default p fun old => (f old, old)

def cas [DecidableEq α] (p : Place σ α) (expected desired : α) : Prog σ ε (Bool × α) :=
  casAt default p expected desired

def casWeak [DecidableEq α] (p : Place σ α) (expected desired : α) : Prog σ ε (Bool × α) :=
  casWeakAt default p expected desired

def choose : Prog σ ε ℕ := chooseAt default

end

/-- `fetch` with a label. -/
def fetchAt (e : ε) (p : Place σ α) (f : α → α) : Prog σ ε α := rmwAt e p fun old => (f old, old)

end Prog

end Conc
