import RemoteFs.ClientCacheEviction
import RemoteFs.RecencyList

/-! # The cache as a recency list

With the policy `Lru` and no time to live the time stamps of the hash map are an order of its
keys: every call does to the cache what it does to a list with the last used key in front. -/
namespace ClientCacheRecency

open ClientCache
open ClientCacheEviction
open ClientPageCache
open OsPaths
open RecencyList

inductive Call (L : PageLimits) where
  | get (p : Path)
  | put (p : Path) (item : CacheItem L) (invalidateAttributes : Bool)
  | remove (p : Path)
  | invalidate (p : Path)

variable {L : PageLimits}

def call (c : Cache L) (m : Moment) : Call L → Option (CacheItem L) × Cache L
  | .get p => c.get p m
  | .put p item inv => (none, c.put p item inv m)
  | .remove p => c.remove p
  | .invalidate p => (none, c.invalidate p)

def merged (pages : HashOrder ℕ) (item : CacheItem L) (inv : Bool) (old : CacheItem L) :
    CacheItem L :=
  if inv then (old.update pages item).invalidateAttributes else old.update pages item

def refCall (capacity : ℕ) (l : Recency Path (CacheItem L)) (pages : HashOrder ℕ) :
    Call L → Option (CacheItem L) × Recency Path (CacheItem L)
  | .get p => RecencyList.get l p
  | .put p item inv => (none, RecencyList.put capacity l p item (merged pages item inv))
  | .remove p => (find l p, drop l fun q => q = p ∨ StrictAncestor q p)
  | .invalidate p => (none, drop l (· = p))

def run : Cache L → List (Call L × Moment) → List (Option (CacheItem L)) × Cache L
  | c, [] => ([], c)
  | c, (k, m) :: rest =>
    ((call c m k).1 :: (run (call c m k).2 rest).1, (run (call c m k).2 rest).2)

def refRun (capacity : ℕ) : Recency Path (CacheItem L) → List (Call L × Moment) →
    List (Option (CacheItem L)) × Recency Path (CacheItem L)
  | l, [] => ([], l)
  | l, (k, m) :: rest =>
    ((refCall capacity l m.pages k).1 :: (refRun capacity (refCall capacity l m.pages k).2 rest).1,
      (refRun capacity (refCall capacity l m.pages k).2 rest).2)

def emptyLru (capacity ttl : ℕ) : Cache L := ⟨∅, capacity, ttl, false, .lru⟩

/-- The cache holds the entries of the list, and its time stamps are the order of the list. -/
structure Refines (capacity : ℕ) (c : Cache L) (l : Recency Path (CacheItem L)) (now : ℕ) :
    Prop where
  keys : c.entries.keys.Perm (keys l)
  items : ∀ p, (AList.lookup p c.entries).map CacheEntry.item = find l p
  timed : Timed c.rank now l
  capacity : c.capacity = capacity
  noTtl : c.useTtl = false
  lru : c.policy = .lru

variable {c : Cache L} {l : Recency Path (CacheItem L)} {p q : Path} {now t capacity : ℕ}
variable {e : CacheEntry L} {m : Moment} {item : CacheItem L} {inv : Bool}

namespace Refines

theorem mem (h : Refines capacity c l now) : p ∈ c.entries ↔ p ∈ RecencyList.keys l := by
  rw [AList.mem_keys]
  exact h.keys.mem_iff

theorem length (h : Refines capacity c l now) : size c = l.length := by
  have hlen := h.keys.length_eq
  rwa [RecencyList.keys, List.length_map] at hlen

theorem not_expired (h : Refines capacity c l now) (e : CacheEntry L) (t : ℕ) :
    c.expired e t = false := by
  rw [Cache.expired, h.noTtl, Bool.false_and]

theorem empty (capacity ttl now : ℕ) :
    Refines capacity (emptyLru capacity ttl : Cache L) [] now := by
  refine ⟨?_, fun _ => rfl, ⟨?_, ?_⟩, rfl, rfl, rfl⟩
  · exact List.Perm.refl _
  · exact List.Pairwise.nil
  · intro a ha
    cases ha

theorem later (h : Refines capacity c l now) (hle : now ≤ t) : Refines capacity c l t :=
  { h with timed := h.timed.mono hle }

theorem erase (h : Refines capacity c l now) (p : Path) :
    Refines capacity (c.erase p) (drop l (· = p)) now := by
  refine ⟨?_, fun q => ?_, ?_, h.capacity, h.noTtl, h.lru⟩
  · rw [keys_drop, Cache.erase, keys_erase_filter]
    exact h.keys.filter _
  · by_cases hq : q = p
    · subst hq
      have hgone : find (drop l (· = q)) q = none := find_dropped rfl
      rw [hgone]
      simp [Cache.erase]
    · have hkept : find (drop l (· = p)) q = find l q := find_drop hq
      rw [hkept, Cache.erase, AList.lookup_erase_ne hq, h.items]
  · refine (h.timed.drop (· = p)).congr fun j hj => ?_
    exact rank_erase (mem_keys_drop.mp hj).2

theorem insert (h : Refines capacity c l t) (he : e.lastAccessed = t) (p : Path) :
    Refines capacity (c.insert p e) (use l p e.item) (t + 1) := by
  refine ⟨?_, fun q => ?_, ?_, h.capacity, h.noTtl, h.lru⟩
  · have herase := keys_erase_filter c.entries p
    rw [AList.keys_erase] at herase
    rw [keys_use, Cache.insert, AList.keys_insert, herase]
    exact (h.keys.filter _).cons p
  · by_cases hq : q = p
    · subst hq
      rw [find_use_self, Cache.insert, AList.lookup_insert]
      rfl
    · rw [find_use_ne hq, Cache.insert, AList.lookup_insert_ne hq, h.items]
  · refine h.timed.use ?_ ?_ _
    · rw [Cache.rank, Cache.insert, AList.lookup_insert, h.lru]
      exact he
    · intro j hj
      exact rank_of_lookup rfl (AList.lookup_insert_ne hj)

theorem victim (h : Refines capacity c l now) (hv : c.selectVictim m = some q) :
    ∃ a, l.getLast? = some a ∧ a.1 = q := by
  obtain ⟨hq, hmin⟩ := victim_minimal hv
  cases hlast : l.getLast? with
  | none =>
    rw [List.getLast?_eq_none_iff.mp hlast] at h
    exact (List.not_mem_nil (h.mem.mp hq)).elim
  | some a =>
    have ha : a.1 ∈ RecencyList.keys l := List.mem_map_of_mem (List.mem_of_getLast? hlast)
    exact ⟨a, rfl, (h.timed.last_least hlast (h.mem.mp hq) (hmin a.1 (h.mem.mpr ha))).symm⟩

theorem evictFull (h : Refines capacity c l now) (hcap : 1 ≤ capacity) (m : Moment) :
    Refines capacity (c.evictFull m) (if capacity ≤ l.length then l.dropLast else l) now := by
  by_cases hfull : capacity ≤ l.length
  · have hsize : c.capacity ≤ size c := by
      rw [h.capacity, h.length]
      exact hfull
    obtain ⟨q, hq⟩ := victim_exists (show 0 < size c by rw [h.length]; omega) m
    obtain ⟨a, hlast, rfl⟩ := h.victim hq
    rw [if_pos hfull, evictFull_victim hsize hq, h.timed.dropLast hlast]
    exact h.erase a.1
  · rw [if_neg hfull, evictFull_room (by rwa [h.capacity, h.length])]
    exact h

theorem get (h : Refines capacity c l t) (hm : m.now = t) (p : Path) :
    (c.get p m).1 = (RecencyList.get l p).1 ∧
      Refines capacity (c.get p m).2 (RecencyList.get l p).2 (t + 1) := by
  have hitem := h.items p
  unfold Cache.get RecencyList.get
  cases hl : AList.lookup p c.entries with
  | none =>
    rw [hl] at hitem
    rw [← hitem]
    exact ⟨rfl, h.later (Nat.le_succ t)⟩
  | some e =>
    rw [hl] at hitem
    rw [← hitem]
    simp only [h.not_expired, Bool.false_eq_true, if_false, Option.map_some, true_and]
    exact h.insert (e := { e with lastAccessed := m.now, accessCount := e.accessCount + 1 }) hm p

theorem put (h : Refines capacity c l t) (hcap : 1 ≤ capacity) (hm : m.now = t) (p : Path)
    (item : CacheItem L) (inv : Bool) : Refines capacity (c.put p item inv m)
      (RecencyList.put capacity l p item (merged m.pages item inv)) (t + 1) := by
  have hitem := h.items p
  unfold Cache.put RecencyList.put
  cases hl : AList.lookup p c.entries with
  | none =>
    rw [hl] at hitem
    rw [← hitem]
    exact (h.evictFull hcap m).insert (e := CacheEntry.new item m.now) hm p
  | some e =>
    rw [hl] at hitem
    rw [← hitem]
    simp only [h.not_expired, Bool.false_eq_true, if_false, Option.map_some]
    cases inv with
    | false => exact h.insert (e := CacheEntry.update { e with
        lastAccessed := m.now, accessCount := e.accessCount + 1 } item m.pages) hm p
    | true =>
      exact h.insert (e := { CacheEntry.update { e with
        lastAccessed := m.now, accessCount := e.accessCount + 1 } item m.pages with
        item := (e.item.update m.pages item).invalidateAttributes }) hm p

theorem invalidateParents (h : Refines capacity c l now) (p : Path) :
    Refines capacity (c.invalidateParents p) (drop l (StrictAncestor · p)) now := by
  have hfold : ∀ (ps : List Path) (c : Cache L) (l : Recency Path (CacheItem L)),
      Refines capacity c l now →
      Refines capacity (ps.foldl Cache.erase c) (drop l (· ∈ ps)) now := by
    intro ps
    induction ps with
    | nil =>
      intro c l h
      simpa [drop] using h
    | cons q ps ih =>
      intro c l h
      have hboth : drop (drop l (· = q)) (· ∈ ps) = drop l (· ∈ q :: ps) := by
        rw [drop, drop, drop, List.filter_filter]
        refine List.filter_congr fun a _ => ?_
        simp [Bool.and_comm]
      rw [← hboth]
      exact ih _ _ (h.erase q)
  have hsame : drop l (· ∈ parentPaths p) = drop l (StrictAncestor · p) := by
    refine List.filter_congr fun a _ => ?_
    simp only [mem_parentPaths]
  rw [← hsame]
  exact hfold _ c l h

theorem remove (h : Refines capacity c l now) (p : Path) :
    (c.remove p).1 = find l p ∧ Refines capacity (c.remove p).2
      (drop l fun q => q = p ∨ StrictAncestor q p) now := by
  have hboth : drop (drop l (· = p)) (StrictAncestor · p) =
      drop l fun q => q = p ∨ StrictAncestor q p := by
    rw [drop, drop, drop, List.filter_filter]
    refine List.filter_congr fun a _ => ?_
    simp [Bool.and_comm]
  refine ⟨h.items p, ?_⟩
  rw [← hboth]
  exact (h.erase p).invalidateParents p

/-- One call keeps the relation and returns what the model returns. -/
theorem call (h : Refines capacity c l t) (hcap : 1 ≤ capacity) (hm : m.now = t) (k : Call L) :
    (ClientCacheRecency.call c m k).1 = (refCall capacity l m.pages k).1 ∧
      Refines capacity (ClientCacheRecency.call c m k).2 (refCall capacity l m.pages k).2
        (t + 1) := by
  cases k with
  | get p => exact h.get hm p
  | put p item inv => exact ⟨rfl, h.put hcap hm p item inv⟩
  | remove p => exact ⟨(h.remove p).1, (h.remove p).2.later (Nat.le_succ t)⟩
  | invalidate p => exact ⟨rfl, (h.erase p).later (Nat.le_succ t)⟩

end Refines

/-- Along calls at later and later times the cache and the model go together. -/
theorem run_refines (hcap : 1 ≤ capacity) (calls : List (Call L × Moment)) :
    ∀ (c : Cache L) (l : Recency Path (CacheItem L)) (now : ℕ), Refines capacity c l now →
      (∀ k ∈ calls, now ≤ k.2.now) → (calls.map fun k => k.2.now).Pairwise (· < ·) →
      (run c calls).1 = (refRun capacity l calls).1 ∧
        ∃ now', Refines capacity (run c calls).2 (refRun capacity l calls).2 now' := by
  induction calls with
  | nil =>
    intro c l now h _ _
    exact ⟨rfl, now, h⟩
  | cons k calls ih =>
    intro c l now h hlate hclock
    obtain ⟨k, m⟩ := k
    rw [List.map_cons, List.pairwise_cons] at hclock
    have hnow : now ≤ m.now := hlate (k, m) List.mem_cons_self
    obtain ⟨hout, hstep⟩ := (h.later hnow).call hcap rfl k
    have hnext : ∀ k' ∈ calls, m.now + 1 ≤ k'.2.now := fun k' hk' =>
      hclock.1 _ (List.mem_map_of_mem hk')
    obtain ⟨houts, hend⟩ := ih _ _ _ hstep hnext hclock.2
    refine ⟨?_, hend⟩
    rw [run, refRun, hout, houts]

theorem refCall_length (hcap : 1 ≤ capacity) (h : l.length ≤ capacity) (pages : HashOrder ℕ)
    (k : Call L) : (refCall capacity l pages k).2.length ≤ capacity := by
  cases k with
  | get p => exact (length_get l p).trans h
  | put p item inv => exact length_put hcap h p item _
  | remove p => exact (List.length_filter_le _ _).trans h
  | invalidate p => exact (List.length_filter_le _ _).trans h

theorem refRun_length (hcap : 1 ≤ capacity) (calls : List (Call L × Moment)) :
    ∀ l : Recency Path (CacheItem L), l.length ≤ capacity →
      (refRun capacity l calls).2.length ≤ capacity := by
  induction calls with
  | nil => exact fun _ h => h
  | cons k calls ih => exact fun l h => ih _ (refCall_length hcap h _ _)

/-- An empty cache returns and holds what the reference model does, whatever the calls. -/
theorem lru_refines_recency (capacity ttl : ℕ) (hcap : 1 ≤ capacity)
    (calls : List (Call L × Moment))
    (hclock : (calls.map fun k => k.2.now).Pairwise (· < ·)) :
    (run (emptyLru capacity ttl) calls).1 = (refRun capacity [] calls).1 ∧
      (∀ p, p ∈ (run (emptyLru capacity ttl) calls).2.entries ↔
        p ∈ keys (refRun capacity [] calls).2) ∧
      (keys (refRun capacity [] calls).2).Nodup ∧
      (refRun capacity [] calls).2.length ≤ capacity := by
  obtain ⟨houts, now', h⟩ := run_refines hcap calls (emptyLru capacity ttl) [] 0
    (Refines.empty capacity ttl 0) (fun _ _ => Nat.zero_le _) hclock
  exact ⟨houts, fun p => h.mem, h.timed.nodup, refRun_length hcap calls [] (Nat.zero_le _)⟩

def thirdFile : Path := [.rootDir, .normal (.text "c")]

def fourCalls : List (Call smallPages × Moment) :=
  [(.put firstFile link false, moment 1), (.put secondFile link false, moment 2),
    (.get firstFile, moment 3), (.put thirdFile link true, moment 4)]

theorem lru_refines_recency_two :
    firstFile ∈ (run (emptyLru 2 0) fourCalls).2.entries ∧
      secondFile ∉ (run (emptyLru 2 0) fourCalls).2.entries := by
  obtain ⟨-, hkeys, -, -⟩ := lru_refines_recency 2 0 (by decide) fourCalls (by decide)
  rw [hkeys, hkeys]
  decide

end ClientCacheRecency
