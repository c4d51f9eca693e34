import RemoteFs.ClientCacheEviction
import RemoteFs.ClientFaults
import RemoteFs.Interleaving

/-! # The calls of the cache and its lock

A call holds the lock of the map for a section at a time; `put_new` and `remove` let it go
between two, and other calls may then take theirs. A section looks at the clock where the code
does, and one that panics has not changed the map. -/
namespace ClientCacheSections

open ClientCache
open ClientCacheCalls
open ClientCacheEviction
open ClientFaults
open ClientPageCache
open Interleaving
open OsPaths

variable {L : PageLimits}

/-- What the clock says where a section looks at it: for the age of an entry, for the use of one
that is there, and twice for a new one. -/
structure Looks where
  check : ℕ
  used : ℕ
  made : ℕ
  first : ℕ
  victims : HashOrder Path
  pages : HashOrder ℕ

def Moment.looks (m : Moment) : Looks := ⟨m.now, m.now, m.now, m.now, m.victims, m.pages⟩

def Looks.moment (l : Looks) : Moment := ⟨l.made, l.victims, l.pages⟩

inductive Section (L : PageLimits) where
  | get (p : Path)
  | put (p : Path) (item : CacheItem L) (invalidateAttributes : Bool)
  | invalidateParents (p : Path)
  | insertNew (p : Path) (item : CacheItem L)
  | remove (p : Path)

def insertNew (c : Cache L) (p : Path) (item : CacheItem L) (l : Looks) : Cache L :=
  (c.evictFull l.moment).insert p
    { item := item, createdAt := l.made, lastAccessed := l.first, accessCount := 0 }

def get (M : Machine) (c : Cache L) (p : Path) (l : Looks) :
    Except Fault (Option (CacheItem L) × Cache L) :=
  match AList.lookup p c.entries with
  | none => .ok (none, c)
  | some e => (expired M c e l.check).map fun gone =>
    if gone then (none, c.erase p)
    else (some e.item,
      c.insert p { e with lastAccessed := l.used, accessCount := e.accessCount + 1 })

def put (M : Machine) (c : Cache L) (p : Path) (item : CacheItem L)
    (invalidateAttributes : Bool) (l : Looks) : Except Fault (Cache L) :=
  match AList.lookup p c.entries with
  | none => .ok (insertNew c p item l)
  | some e => (expired M c e l.check).map fun gone =>
    if gone then insertNew (c.erase p) p item l
    else
      let e := { e with lastAccessed := l.used, accessCount := e.accessCount + 1 }
      let e := e.update item l.pages
      c.insert p (if invalidateAttributes then { e with item := e.item.invalidateAttributes }
        else e)

def Section.run (M : Machine) (c : Cache L) (l : Looks) :
    Section L → Except Fault (Option (CacheItem L) × Cache L)
  | get p => ClientCacheSections.get M c p l
  | put p item inv => (ClientCacheSections.put M c p item inv l).map fun c => (none, c)
  | invalidateParents p => .ok (none, c.invalidateParents p)
  | insertNew p item => .ok (none, ClientCacheSections.insertNew c p item l)
  | remove p => .ok ((AList.lookup p c.entries).map CacheEntry.item, c.erase p)

abbrev Turn (L : PageLimits) := Section L × Looks

/-- A panic lets the lock go with the map as it was. -/
def settled (c : Cache L) : Except Fault (Cache L) → Cache L
  | .error _ => c
  | .ok done => done

def Turn.apply (M : Machine) (t : Turn L) (c : Cache L) : Cache L :=
  settled c ((t.1.run M c t.2).map Prod.snd)

abbrev Steps (L : PageLimits) (α : Type) := Program (Cache L) (Turn L) α

def locked (M : Machine) (s : Section L) (l : Looks) :
    Steps L (Except Fault (Option (CacheItem L))) :=
  .step (fun _ => (s, l)) fun c => .pure ((s.run M c l).map Prod.fst)

def steps (M : Machine) (l l' : Looks) :
    CacheCall L → Steps L (Except Fault (Option (CacheItem L)))
  | .get p => locked M (.get p) l
  | .put p item inv => locked M (.put p item inv) l
  | .putNew p item =>
    (locked M (.invalidateParents p) l).bind fun _ => locked M (.insertNew p item) l'
  | .remove p =>
    (locked M (.remove p) l).bind fun removed =>
      (locked M (.invalidateParents p) l').bind fun _ => .pure removed
  | .invalidate p => (locked M (.remove p) l).bind fun _ => .pure (.ok none)

def caller (M : Machine) : List (CacheCall L × Looks × Looks) →
    Steps L (List (Except Fault (Option (CacheItem L))))
  | [] => .pure []
  | (call, l, l') :: calls =>
    (steps M l l' call).bind fun result => (caller M calls).bind fun results =>
      .pure (result :: results)

def start {ι : Type*} (M : Machine) (capacity ttl : ℕ) (useTtl : Bool) (policy : CachePolicy)
    (calls : ι → List (CacheCall L × Looks × Looks)) :
    Pool ι (Cache L) (Turn L) (List (Except Fault (Option (CacheItem L)))) :=
  ⟨fun i => caller M (calls i), ⟨∅, capacity, ttl, useTtl, policy⟩⟩

variable {M : Machine} {c : Cache L} {p : Path} {item : CacheItem L} {l l' : Looks} {m : Moment}
variable {n : ℕ}

section Alone

theorem put_looks (c : Cache L) (p : Path) (item : CacheItem L) (inv : Bool) (m : Moment) :
    put M c p item inv (Moment.looks m) = ClientFaults.put M c p item inv m := rfl

/-- A call that no other comes between is the call of the cache; one that panics leaves the
cache as it was. -/
theorem steps_run (call : CacheCall L) (c : Cache L) (m : Moment) :
    ((steps M (Moment.looks m) (Moment.looks m) call).run (Turn.apply M) c).2 =
      settled c (runCall M c m call) := by
  cases call with
  | get p => rfl
  | put p item inv =>
    change settled c (((put M c p item inv (Moment.looks m)).map fun c => (none, c)).map
      Prod.snd) = _
    rw [put_looks, runCall]
    cases ClientFaults.put M c p item inv m <;> rfl
  | putNew p item => rfl
  | remove p => rfl
  | invalidate p => rfl

theorem caller_run (calls : List (CacheCall L × Moment)) : ∀ c : Cache L,
    ((caller M (calls.map fun k => (k.1, Moment.looks k.2, Moment.looks k.2))).run
        (Turn.apply M) c).2 =
      calls.foldl (fun c k => settled c (runCall M c k.2 k.1)) c := by
  induction calls with
  | nil => exact fun _ => rfl
  | cons k calls ih =>
    intro c
    rw [List.map_cons, caller, Program.run_bind, Program.run_bind, List.foldl_cons, steps_run]
    exact ih _

end Alone

section Sizes

/-- The number of entries that a capacity allows; a cache without any still takes one. -/
def Small (n : ℕ) (c : Cache L) : Prop := c.capacity = n ∧ size c ≤ max n 1

namespace Small

theorem erase (h : Small n c) (p : Path) : Small n (c.erase p) :=
  ⟨h.1, (size_erase_le c p).trans h.2⟩

theorem insert_mem {e : CacheEntry L} (h : Small n c) (hp : p ∈ c.entries) :
    Small n (c.insert p e) :=
  ⟨h.1, (size_insert_mem hp e).trans_le h.2⟩

theorem invalidateParents (h : Small n c) (p : Path) : Small n (c.invalidateParents p) :=
  Cache.invalidateParents_keeps (fun _ q hd => hd.erase q) h p

theorem insertNew (h : Small n c) (p : Path) (item : CacheItem L) (l : Looks) :
    Small n (ClientCacheSections.insertNew c p item l) := by
  obtain ⟨hcapacity, hsize⟩ := h
  have hfits : size c ≤ max c.capacity 1 := hcapacity.symm ▸ hsize
  obtain ⟨hroom, hsame⟩ := size_evictFull hfits l.moment
  have hle : size (ClientCacheSections.insertNew c p item l) ≤ size (c.evictFull l.moment) + 1 :=
    size_insert_le (c.evictFull l.moment) p _
  exact ⟨hsame.trans hcapacity, hle.trans (hcapacity ▸ hroom)⟩

theorem get {done : Option (CacheItem L) × Cache L} (h : Small n c)
    (hrun : ClientCacheSections.get M c p l = .ok done) : Small n done.2 := by
  unfold ClientCacheSections.get at hrun
  cases hl : AList.lookup p c.entries with
  | none =>
    rw [hl] at hrun
    injection hrun with hrun
    exact hrun ▸ h
  | some e =>
    rw [hl] at hrun
    dsimp only at hrun
    cases hx : expired M c e l.check with
    | error fault => rw [hx] at hrun; cases hrun
    | ok gone =>
      rw [hx] at hrun
      injection hrun with hrun
      subst hrun
      cases gone with
      | true => exact h.erase p
      | false => exact h.insert_mem (mem_of_lookup hl)

theorem put {done : Cache L} {inv : Bool} (h : Small n c)
    (hrun : ClientCacheSections.put M c p item inv l = .ok done) : Small n done := by
  unfold ClientCacheSections.put at hrun
  cases hl : AList.lookup p c.entries with
  | none =>
    rw [hl] at hrun
    injection hrun with hrun
    exact hrun ▸ h.insertNew p item l
  | some e =>
    rw [hl] at hrun
    dsimp only at hrun
    cases hx : expired M c e l.check with
    | error fault => rw [hx] at hrun; cases hrun
    | ok gone =>
      rw [hx] at hrun
      injection hrun with hrun
      subst hrun
      cases gone with
      | true => exact (h.erase p).insertNew p item l
      | false => exact h.insert_mem (mem_of_lookup hl)

/-- The step lemma: one section, wherever it comes among those of other calls. -/
theorem apply (t : Turn L) (h : Small n c) : Small n (t.apply M c) := by
  obtain ⟨s, l⟩ := t
  cases s with
  | get p =>
    change Small n (settled c ((ClientCacheSections.get M c p l).map Prod.snd))
    cases hrun : ClientCacheSections.get M c p l with
    | error fault => exact h
    | ok done => exact h.get hrun
  | put p item inv =>
    change Small n (settled c
      (((ClientCacheSections.put M c p item inv l).map fun c => (none, c)).map Prod.snd))
    cases hrun : ClientCacheSections.put M c p item inv l with
    | error fault => exact h
    | ok done => exact h.put hrun
  | invalidateParents p => exact h.invalidateParents p
  | insertNew p item => exact h.insertNew p item l
  | remove p => exact h.erase p

end Small

/-- Whatever calls are made, by however many callers and in whatever order their sections get
the lock, there are never more entries than the capacity, or than one. -/
theorem size_bounded {ι : Type} [DecidableEq ι] (M : Machine) (capacity ttl : ℕ) (useTtl : Bool)
    (policy : CachePolicy) (calls : ι → List (CacheCall L × Looks × Looks))
    (schedule : List ι) :
    size ((start M capacity ttl useTtl policy calls).turns (Turn.apply M) schedule).state ≤
      max capacity 1 := by
  have hstart : Small capacity (start M capacity ttl useTtl policy calls).state :=
    ⟨rfl, Nat.zero_le _⟩
  have h := Pool.turns_keep (fun t c => Small.apply (M := M) (n := capacity) (c := c) t) schedule
    _ hstart
  exact h.2

end Sizes

end ClientCacheSections
