import RemoteFs.ClientCache

/-! # What an insertion evicts

`put` looks for its key first, while `put_new` makes room before it looks: a key that is in a
full cache costs another entry its place. -/
namespace ClientCacheEviction

open ClientCache
open ClientPageCache
open OsPaths

section Keys

variable {α : Type} {β : α → Type} [DecidableEq α] {s : AList β} {a b : α}

theorem keys_erase_filter (s : AList β) (a : α) :
    (s.erase a).keys = s.keys.filter (· ≠ a) := by
  rw [AList.keys_erase, s.keys_nodup.erase_eq_filter]
  refine List.filter_congr fun x _ => ?_
  rw [bne, beq_eq_decide, decide_not]

theorem keys_erase_length (h : a ∈ s) : (s.erase a).keys.length + 1 = s.keys.length := by
  rw [AList.keys_erase]
  exact List.length_erase_add_one (AList.mem_keys.mp h)

theorem keys_erase_length_le (s : AList β) (a : α) : (s.erase a).keys.length ≤ s.keys.length := by
  rw [keys_erase_filter]
  exact List.length_filter_le _ _

theorem keys_insert_mem (h : a ∈ s) (x : β a) : (s.insert a x).keys.length = s.keys.length := by
  rw [AList.keys_insert, List.length_cons]
  exact List.length_erase_add_one (AList.mem_keys.mp h)

theorem keys_insert_new (h : a ∉ s) (x : β a) :
    (s.insert a x).keys.length = s.keys.length + 1 := by
  rw [AList.keys_insert, List.length_cons,
    List.erase_of_not_mem fun hmem => h (AList.mem_keys.mpr hmem)]

theorem keys_insert_le (s : AList β) (a : α) (x : β a) :
    (s.insert a x).keys.length ≤ s.keys.length + 1 := by
  by_cases h : a ∈ s
  · rw [keys_insert_mem h]
    omega
  · rw [keys_insert_new h]

theorem argmin_head {f : α → ℕ} {l : List α} (h : List.argmin f (a :: l) = some b)
    (hle : f a ≤ f b) : b = a := by
  have hfirst := List.index_of_argmin h List.mem_cons_self hle
  rw [List.idxOf_cons_self] at hfirst
  by_contra hne
  rw [List.idxOf_cons_ne _ fun heq => hne heq.symm] at hfirst
  omega

end Keys

variable {L : PageLimits}

inductive Reachable : Cache L → Prop where
  | empty (capacity ttl : ℕ) (useTtl : Bool) (policy : CachePolicy) (h : 1 ≤ capacity) :
      Reachable ⟨∅, capacity, ttl, useTtl, policy⟩
  | get {c : Cache L} (h : Reachable c) (p : Path) (m : Moment) : Reachable (c.get p m).2
  | put {c : Cache L} (h : Reachable c) (p : Path) (item : CacheItem L) (inv : Bool)
      (m : Moment) : Reachable (c.put p item inv m)
  | putNew {c : Cache L} (h : Reachable c) (p : Path) (item : CacheItem L) (m : Moment) :
      Reachable (c.putNew p item m)
  | remove {c : Cache L} (h : Reachable c) (p : Path) : Reachable (c.remove p).2
  | invalidate {c : Cache L} (h : Reachable c) (p : Path) : Reachable (c.invalidate p)

variable {c d : Cache L} {p q r : Path} {m : Moment}
variable {item : CacheItem L} {inv : Bool} {e : CacheEntry L}

def size (c : Cache L) : ℕ := c.entries.keys.length

section Ancestors

def StrictAncestor (q p : Path) : Prop := Relation.TransGen (fun a b => b.parent = some a) q p

theorem parent_length (h : p.parent = some q) : q.length < p.length := by
  unfold Path.parent at h
  split at h
  · cases h
  · cases h
  · rename_i hlast _ _
    injection h with h
    have hne : p ≠ [] := by
      rintro rfl
      simp_all
    have hlen := List.length_pos_of_ne_nil hne
    rw [← h, List.length_dropLast]
    omega

theorem mem_parentPathsLoop (fuel : ℕ) : ∀ p : Path, p.length ≤ fuel →
    (q ∈ parentPathsLoop fuel p.parent ↔ StrictAncestor q p) := by
  induction fuel with
  | zero =>
    intro p hp
    obtain rfl : p = [] := List.length_eq_zero_iff.mp (by omega)
    constructor
    · intro h
      cases h
    · intro h
      rcases Relation.TransGen.tail'_iff.mp h with ⟨b, -, hb⟩
      cases hb
  | succ fuel ih =>
    intro p hp
    have hstep : StrictAncestor q p ↔
        ∃ b, Relation.ReflTransGen (fun a b => b.parent = some a) q b ∧ p.parent = some b :=
      Relation.TransGen.tail'_iff
    rw [hstep]
    cases hparent : p.parent with
    | none => simp [parentPathsLoop]
    | some b =>
      have hlen := parent_length hparent
      rw [parentPathsLoop, List.mem_cons, ih b (by omega), StrictAncestor]
      simp only [Option.some_inj, exists_eq_right', Relation.reflTransGen_iff_eq_or_transGen,
        eq_comm]

theorem mem_parentPaths : q ∈ parentPaths p ↔ StrictAncestor q p :=
  mem_parentPathsLoop p.length p le_rfl

instance (q p : Path) : Decidable (StrictAncestor q p) :=
  decidable_of_iff (∃ r ∈ parentPaths p, r = q) (by simp [mem_parentPaths])

theorem StrictAncestor.length (h : StrictAncestor q p) : q.length < p.length := by
  induction h with
  | single h => exact parent_length h
  | tail _ h ih => exact ih.trans (parent_length h)

theorem not_own_ancestor (p : Path) : ¬StrictAncestor p p :=
  fun h => (Nat.lt_irrefl _) h.length

end Ancestors

section Entries

@[simp] theorem mem_erase : q ∈ (c.erase p).entries ↔ q ≠ p ∧ q ∈ c.entries := AList.mem_erase

@[simp] theorem mem_insert : q ∈ (c.insert p e).entries ↔ q = p ∨ q ∈ c.entries :=
  AList.mem_insert _

theorem size_erase (h : p ∈ c.entries) : size (c.erase p) + 1 = size c := keys_erase_length h

theorem size_erase_le (c : Cache L) (p : Path) : size (c.erase p) ≤ size c :=
  keys_erase_length_le _ _

theorem size_insert_mem (h : p ∈ c.entries) (e : CacheEntry L) :
    size (c.insert p e) = size c := keys_insert_mem h e

theorem size_insert_new (h : p ∉ c.entries) (e : CacheEntry L) :
    size (c.insert p e) = size c + 1 := keys_insert_new h e

theorem size_insert_le (c : Cache L) (p : Path) (e : CacheEntry L) :
    size (c.insert p e) ≤ size c + 1 := keys_insert_le _ _ _

theorem foldl_erase_keys (ps : List Path) : ∀ c : Cache L,
    (ps.foldl Cache.erase c).entries.keys = c.entries.keys.filter (· ∉ ps) ∧
      (ps.foldl Cache.erase c).capacity = c.capacity ∧
      (ps.foldl Cache.erase c).policy = c.policy := by
  induction ps with
  | nil => simp
  | cons p ps ih =>
    intro c
    obtain ⟨hkeys, hcapacity, hpolicy⟩ := ih (c.erase p)
    refine ⟨?_, hcapacity, hpolicy⟩
    rw [List.foldl_cons, hkeys, Cache.erase, keys_erase_filter, List.filter_filter]
    refine List.filter_congr fun q _ => ?_
    simp [Bool.and_comm]

theorem invalidateParents_keys (c : Cache L) (p : Path) :
    (c.invalidateParents p).entries.keys = c.entries.keys.filter (¬StrictAncestor · p) := by
  rw [Cache.invalidateParents, (foldl_erase_keys _ c).1]
  refine List.filter_congr fun q _ => ?_
  simp only [mem_parentPaths]

@[simp] theorem mem_invalidateParents : q ∈ (c.invalidateParents p).entries ↔
    q ∈ c.entries ∧ ¬StrictAncestor q p := by
  rw [AList.mem_keys, invalidateParents_keys, List.mem_filter, ← AList.mem_keys,
    decide_eq_true_iff]

theorem lookup_foldl_erase (ps : List Path) (h : q ∉ ps) : ∀ c : Cache L,
    AList.lookup q (ps.foldl Cache.erase c).entries = AList.lookup q c.entries := by
  induction ps with
  | nil => exact fun _ => rfl
  | cons p ps ih =>
    intro c
    rw [List.mem_cons, not_or] at h
    rw [List.foldl_cons, ih h.2]
    exact AList.lookup_erase_ne h.1

theorem rank_of_lookup (hpolicy : d.policy = c.policy)
    (h : AList.lookup q d.entries = AList.lookup q c.entries) : d.rank q = c.rank q := by
  rw [Cache.rank, Cache.rank, h, hpolicy]

theorem rank_erase (h : q ≠ p) : (c.erase p).rank q = c.rank q :=
  rank_of_lookup rfl (AList.lookup_erase_ne h)

theorem rank_invalidateParents (h : ¬StrictAncestor q p) :
    (c.invalidateParents p).rank q = c.rank q := by
  have hnot : q ∉ parentPaths p := fun hmem => h (mem_parentPaths.mp hmem)
  exact rank_of_lookup (foldl_erase_keys _ c).2.2 (lookup_foldl_erase _ hnot c)

end Entries

section Victims

/-- The victim is an entry that no other entry comes before in the policy. -/
theorem victim_minimal (h : c.selectVictim m = some q) :
    q ∈ c.entries ∧ ∀ r, r ∈ c.entries → c.rank q ≤ c.rank r := by
  have hperm := m.victims.perm c.entries.keys
  constructor
  · exact AList.mem_keys.mpr (hperm.mem_iff.mp (List.argmin_mem h))
  · intro r hr
    exact List.le_of_mem_argmin (hperm.mem_iff.mpr (AList.mem_keys.mp hr)) h

theorem victim_exists (h : 0 < size c) (m : Moment) : ∃ q, c.selectVictim m = some q := by
  cases hv : c.selectVictim m with
  | some q => exact ⟨q, rfl⟩
  | none =>
    have hnil := List.argmin_eq_none.mp hv
    have hlen := (m.victims.perm c.entries.keys).length_eq
    rw [hnil, List.length_nil] at hlen
    unfold size at h
    omega

def startingWith {α : Type} [DecidableEq α] (r : α) : HashOrder α :=
  ⟨fun l => if r ∈ l then r :: l.erase r else l, fun l => by
    by_cases h : r ∈ l
    · rw [if_pos h]
      exact (List.perm_cons_erase h).symm
    · rw [if_neg h]⟩

theorem startingWith_order {α : Type} [DecidableEq α] {r : α} {l : List α} (h : r ∈ l) :
    ∃ rest, (startingWith r).order l = r :: rest := ⟨l.erase r, if_pos h⟩

/-- An entry that another one does not come after may lose to it. -/
theorem victim_other (hr : r ∈ c.entries) (hne : r ≠ p) (hle : c.rank r ≤ c.rank p)
    (m : Moment) :
    c.selectVictim { m with victims := startingWith r } ≠ some p := by
  intro hp
  obtain ⟨rest, hwalk⟩ := startingWith_order (AList.mem_keys.mp hr)
  rw [Cache.selectVictim, hwalk] at hp
  exact hne (argmin_head hp hle).symm

theorem evictFull_victim (hfull : c.capacity ≤ size c) (hv : c.selectVictim m = some q) :
    c.evictFull m = c.erase q := by
  unfold size at hfull
  simp only [Cache.evictFull, hfull, hv, if_true]

theorem evictFull_room (h : ¬c.capacity ≤ size c) (m : Moment) : c.evictFull m = c := if_neg h

theorem size_evictFull (hsize : size c ≤ max c.capacity 1) (m : Moment) :
    size (c.evictFull m) + 1 ≤ max c.capacity 1 ∧ (c.evictFull m).capacity = c.capacity := by
  by_cases hfull : c.capacity ≤ size c
  · by_cases hempty : size c = 0
    · have hnone : c.selectVictim m = none := by
        have hlen := (m.victims.perm c.entries.keys).length_eq
        have hnil := List.length_eq_zero_iff.mp (hlen.trans hempty)
        rw [Cache.selectVictim, hnil, List.argmin_nil]
      have hsame : c.evictFull m = c := by
        rw [Cache.evictFull, hnone, ite_self]
      rw [hsame]
      exact ⟨by omega, rfl⟩
    · obtain ⟨q, hq⟩ := victim_exists (Nat.pos_of_ne_zero hempty) m
      have herase := size_erase (victim_minimal hq).1
      rw [evictFull_victim hfull hq]
      exact ⟨by omega, rfl⟩
  · rw [evictFull_room hfull]
    exact ⟨by omega, rfl⟩

end Victims

section Sizes

/-- What every cache keeps: at most as many entries as its capacity. -/
def Bounded (c : Cache L) : Prop := 1 ≤ c.capacity ∧ size c ≤ c.capacity

theorem Bounded.erase (h : Bounded c) (p : Path) : Bounded (c.erase p) :=
  ⟨h.1, (size_erase_le c p).trans h.2⟩

theorem Bounded.invalidateParents (h : Bounded c) (p : Path) :
    Bounded (c.invalidateParents p) :=
  Cache.invalidateParents_keeps (fun _ q hd => hd.erase q) h p

theorem Bounded.insertNew (h : Bounded c) (p : Path) (item : CacheItem L) (m : Moment) :
    Bounded (c.insertNew p item m) := by
  obtain ⟨hpos, hsize⟩ := h
  obtain ⟨hroom, hcapacity⟩ := size_evictFull (hsize.trans (Nat.le_max_left _ 1)) m
  have hle := size_insert_le (c.evictFull m) p (CacheEntry.new item m.now)
  have hsame : (c.insertNew p item m).capacity = c.capacity := hcapacity
  refine ⟨hsame.symm ▸ hpos, ?_⟩
  rw [hsame]
  exact hle.trans (hroom.trans (Nat.max_le.mpr ⟨le_rfl, hpos⟩))

theorem Bounded.insert_mem (h : Bounded c) (hp : p ∈ c.entries) (e : CacheEntry L) :
    Bounded (c.insert p e) := ⟨h.1, (size_insert_mem hp e).trans_le h.2⟩

theorem mem_of_lookup (h : AList.lookup p c.entries = some e) : p ∈ c.entries :=
  AList.lookup_isSome.mp (by rw [h]; rfl)

theorem Bounded.get (h : Bounded c) (p : Path) (m : Moment) : Bounded (c.get p m).2 := by
  unfold Cache.get
  cases hl : AList.lookup p c.entries with
  | none => exact h
  | some e =>
    dsimp only
    split
    · exact h.erase p
    · exact h.insert_mem (mem_of_lookup hl) _

theorem Bounded.put (h : Bounded c) (p : Path) (item : CacheItem L) (inv : Bool) (m : Moment) :
    Bounded (c.put p item inv m) := by
  unfold Cache.put
  cases hl : AList.lookup p c.entries with
  | none => exact h.insertNew p item m
  | some e =>
    dsimp only
    split
    · exact (h.erase p).insertNew p item m
    · exact h.insert_mem (mem_of_lookup hl) _

theorem Reachable.bounded (h : Reachable c) : Bounded c := by
  induction h with
  | empty capacity ttl useTtl policy h => exact ⟨h, Nat.zero_le _⟩
  | get _ p m ih => exact ih.get p m
  | put _ p item inv m ih => exact ih.put p item inv m
  | putNew _ p item m ih => exact (ih.invalidateParents p).insertNew p item m
  | remove _ p ih => exact (ih.erase p).invalidateParents p
  | invalidate _ p ih => exact ih.erase p

end Sizes

section Insertions

/-- An entry that the insertion of `p` has removed, and is not `p` or above it. -/
def Lost (c : Cache L) (p : Path) (c' : Cache L) (q : Path) : Prop :=
  q ∈ c.entries ∧ q ∉ c'.entries ∧ q ≠ p ∧ ¬StrictAncestor q p

/-- With the entry kept there would be too many; it is the only one; and no entry that stays
comes before it in the policy. -/
structure Needed (c : Cache L) (p : Path) (c' : Cache L) (q : Path) : Prop where
  full : c.capacity < size c' + 1
  only : ∀ r, Lost c p c' r → r = q
  minimal : ∀ r, r ∈ c'.entries → r ≠ p → c.rank q ≤ c.rank r

def EvictsWhenNeeded (c : Cache L) (p : Path) (c' : Cache L) : Prop :=
  ∀ q, Lost c p c' q → Needed c p c' q

theorem insertNew_gone (hq : q ∈ c.entries) (hgone : q ∉ (c.insertNew p item m).entries) :
    c.capacity ≤ size c ∧ c.selectVictim m = some q := by
  rw [Cache.insertNew, mem_insert, not_or] at hgone
  by_cases hfull : c.capacity ≤ size c
  · have hpos := List.length_pos_of_mem (AList.mem_keys.mp hq)
    obtain ⟨v, hv⟩ := victim_exists hpos m
    rw [evictFull_victim hfull hv, mem_erase] at hgone
    have hvq : q = v := by
      by_contra hne
      exact hgone.2 ⟨hne, hq⟩
    exact ⟨hfull, hvq ▸ hv⟩
  · rw [evictFull_room hfull] at hgone
    exact (hgone.2 hq).elim

theorem insertNew_victim (hfull : c.capacity ≤ size c) (hv : c.selectVictim m = some q)
    (p : Path) (item : CacheItem L) :
    c.insertNew p item m = (c.erase q).insert p (CacheEntry.new item m.now) := by
  rw [Cache.insertNew, evictFull_victim hfull hv]

theorem insertNew_mem (hr : r ∈ (c.insertNew p item m).entries) (hne : r ≠ p) :
    r ∈ c.entries := by
  have hkept := (mem_insert.mp hr).resolve_left hne
  unfold Cache.evictFull at hkept
  split at hkept
  · split at hkept
    · exact (mem_erase.mp hkept).2
    · exact hkept
  · exact hkept

/-- A key that is not there takes the place of one entry at most, in a full cache. -/
theorem insertNew_needed (hp : p ∉ c.entries) (item : CacheItem L) (m : Moment) :
    EvictsWhenNeeded c p (c.insertNew p item m) := by
  rintro q ⟨hq, hgone, hne, -⟩
  obtain ⟨hfull, hv⟩ := insertNew_gone hq hgone
  have hsize : size (c.insertNew p item m) = size c := by
    rw [insertNew_victim hfull hv, size_insert_new fun h => hp (mem_erase.mp h).2,
      size_erase hq]
  refine ⟨by omega, ?_, ?_⟩
  · rintro r ⟨hr, hrgone, -, -⟩
    exact Option.some_inj.mp ((insertNew_gone hr hrgone).2.symm.trans hv)
  · intro r hr hrne
    exact (victim_minimal hv).2 r (insertNew_mem hr hrne)

/-- Entries that the insertion drops by its own rules do not count. -/
theorem EvictsWhenNeeded.of_dropped (hcapacity : d.capacity = c.capacity)
    (hkept : ∀ q, q ∈ c.entries → q ≠ p → ¬StrictAncestor q p → q ∈ d.entries)
    (hrank : ∀ q, q ∈ d.entries → d.rank q = c.rank q) {c' : Cache L}
    (hstay : ∀ r, r ∈ c'.entries → r ≠ p → r ∈ d.entries)
    (h : EvictsWhenNeeded d p c') : EvictsWhenNeeded c p c' := by
  have hlost : ∀ q, Lost c p c' q → Lost d p c' q := by
    rintro q ⟨hq, hgone, hne, hanc⟩
    exact ⟨hkept q hq hne hanc, hgone, hne, hanc⟩
  intro q hq
  obtain ⟨hfull, honly, hminimal⟩ := h q (hlost q hq)
  refine ⟨hcapacity ▸ hfull, fun r hr => honly r (hlost r hr), fun r hr hne => ?_⟩
  rw [← hrank q (hlost q hq).1, ← hrank r (hstay r hr hne)]
  exact hminimal r hr hne

theorem put_needed (c : Cache L) (p : Path) (item : CacheItem L) (inv : Bool) (m : Moment) :
    EvictsWhenNeeded c p (c.put p item inv m) := by
  unfold Cache.put
  cases hl : AList.lookup p c.entries with
  | none => exact insertNew_needed (AList.lookup_eq_none.mp hl) item m
  | some e =>
    dsimp only
    split
    · have hnew : p ∉ (c.erase p).entries := fun h => (mem_erase.mp h).1 rfl
      have hneed : EvictsWhenNeeded (c.erase p) p ((c.erase p).insertNew p item m) :=
        insertNew_needed hnew item m
      have hcapacity : (c.erase p).capacity = c.capacity := rfl
      refine hneed.of_dropped hcapacity ?_ ?_ ?_
      · exact fun q hq hne _ => mem_erase.mpr ⟨hne, hq⟩
      · intro q hq
        exact rank_erase (mem_erase.mp hq).1
      · intro r hr hne
        exact insertNew_mem hr hne
    · rintro q ⟨hq, hgone, -, -⟩
      exact (hgone (mem_insert.mpr (Or.inr hq))).elim

def others (c : Cache L) (p : Path) : List Path :=
  c.entries.keys.filter fun q => q ≠ p ∧ ¬StrictAncestor q p

/-- The key is new, or there is room for it beside the others, or it comes before all of
them in the policy. -/
def Fits (c : Cache L) (p : Path) : Prop :=
  p ∉ c.entries ∨ (others c p).length + 1 < c.capacity ∨
    ∀ q ∈ others c p, c.rank p < c.rank q

theorem mem_others : q ∈ others c p ↔ q ∈ c.entries ∧ q ≠ p ∧ ¬StrictAncestor q p := by
  rw [others, List.mem_filter, ← AList.mem_keys, decide_eq_true_iff]

theorem size_others (hp : p ∈ c.entries) :
    size (c.invalidateParents p) = (others c p).length + 1 := by
  have hmem : p ∈ (c.invalidateParents p).entries.keys :=
    AList.mem_keys.mp (mem_invalidateParents.mpr ⟨hp, not_own_ancestor p⟩)
  have hothers : others c p = ((c.invalidateParents p).erase p).entries.keys := by
    rw [Cache.erase, keys_erase_filter, invalidateParents_keys, List.filter_filter, others]
    refine List.filter_congr fun q _ => ?_
    simp
  rw [hothers]
  exact (size_erase (AList.mem_keys.mpr hmem)).symm

theorem putNew_needed_of_lost (h : EvictsWhenNeeded (c.invalidateParents p) p
    (c.putNew p item m)) : EvictsWhenNeeded c p (c.putNew p item m) := by
  refine h.of_dropped (foldl_erase_keys _ c).2.1 ?_ ?_ ?_
  · exact fun q hq _ hanc => mem_invalidateParents.mpr ⟨hq, hanc⟩
  · intro q hq
    exact rank_invalidateParents (mem_invalidateParents.mp hq).2
  · intro r hr hne
    exact insertNew_mem hr hne

/-- A present key in a full cache has another entry evicted for it, and a place is left. -/
theorem putNew_wasteful (hb : Bounded c) (hp : p ∈ c.entries)
    (hfull : c.capacity ≤ (others c p).length + 1)
    (hv : (c.invalidateParents p).selectVictim m = some q) (hne : q ≠ p) (item : CacheItem L) :
    ¬EvictsWhenNeeded c p (c.putNew p item m) := by
  intro h
  have hcapacity : (c.invalidateParents p).capacity = c.capacity := (foldl_erase_keys _ c).2.1
  have hsize := size_others hp
  have hbound := (hb.invalidateParents p).2
  obtain ⟨hq, hanc⟩ := mem_invalidateParents.mp (victim_minimal hv).1
  have hrun : c.putNew p item m =
      ((c.invalidateParents p).erase q).insert p (CacheEntry.new item m.now) :=
    insertNew_victim (by omega) hv p item
  have hstays : p ∈ ((c.invalidateParents p).erase q).entries := by
    rw [mem_erase, mem_invalidateParents]
    exact ⟨fun h => hne h.symm, hp, not_own_ancestor p⟩
  have hgone : q ∉ (c.putNew p item m).entries := by
    rw [hrun, mem_insert, mem_erase]
    simp [hne]
  have hneed := (h q ⟨hq, hgone, hne, hanc⟩).full
  have herase := size_erase (victim_minimal hv).1
  rw [hrun, size_insert_mem hstays] at hneed
  omega

theorem putNew_needed_iff (hb : Bounded c) (p : Path) (item : CacheItem L) :
    (∀ m, EvictsWhenNeeded c p (c.putNew p item m)) ↔ Fits c p := by
  by_cases hp : p ∈ c.entries
  · have hcapacity : (c.invalidateParents p).capacity = c.capacity := (foldl_erase_keys _ c).2.1
    have hsize := size_others hp
    constructor
    · intro h
      by_contra hfits
      simp only [Fits, hp, not_true_eq_false, false_or, not_or, not_forall, not_lt] at hfits
      obtain ⟨hfull, r, hr, hle⟩ := hfits
      obtain ⟨hrc, hrne, hranc⟩ := mem_others.mp hr
      let m : Moment := ⟨0, startingWith r, HashOrder.id ℕ⟩
      obtain ⟨q, hq⟩ := victim_exists (c := c.invalidateParents p) (by omega) m
      have hne : q ≠ p := by
        rintro rfl
        refine victim_other (mem_invalidateParents.mpr ⟨hrc, hranc⟩) hrne ?_ m hq
        rwa [rank_invalidateParents hranc, rank_invalidateParents (not_own_ancestor _)]
      exact putNew_wasteful hb hp hfull hq hne item (h m)
    · intro hfits m
      refine putNew_needed_of_lost ?_
      rintro q ⟨hq, hgone, hne, hanc⟩
      exfalso
      obtain ⟨hfull, hv⟩ := insertNew_gone hq hgone
      rcases hfits with hnew | hroom | hfirst
      · exact hnew hp
      · omega
      · have hlt := hfirst q (mem_others.mpr ⟨(mem_invalidateParents.mp hq).1, hne, hanc⟩)
        have hmin := (victim_minimal hv).2 p
          (mem_invalidateParents.mpr ⟨hp, not_own_ancestor p⟩)
        rw [rank_invalidateParents hanc, rank_invalidateParents (not_own_ancestor p)] at hmin
        omega
  · refine ⟨fun _ => Or.inl hp, fun _ m => putNew_needed_of_lost ?_⟩
    exact insertNew_needed (fun h => hp (mem_invalidateParents.mp h).1) item m

/-- `put` evicts only when it has to; `put_new` does exactly where its key is new, has room
beside the others, or would be the victim itself. -/
theorem evicts_when_needed_iff (h : Reachable c) (p : Path) (item : CacheItem L) :
    (∀ inv m, EvictsWhenNeeded c p (c.put p item inv m)) ∧
      ((∀ m, EvictsWhenNeeded c p (c.putNew p item m)) ↔ Fits c p) :=
  ⟨fun inv m => put_needed c p item inv m, putNew_needed_iff h.bounded p item⟩

section TwoFiles

def moment (now : ℕ) : Moment := ⟨now, HashOrder.id Path, HashOrder.id ℕ⟩

def firstFile : Path := [.rootDir, .normal (.text "a")]
def secondFile : Path := [.rootDir, .normal (.text "b")]

def link : CacheItem L := .symLink ⟨.text "b", none, none⟩

theorem smallPage_pos : 0 < 4 := by decide

def smallPages : PageLimits := ⟨4, 4, smallPage_pos⟩

def twoFiles : Cache smallPages :=
  ((⟨∅, 2, 0, false, .lru⟩ : Cache smallPages).put firstFile link false (moment 1)).put
    secondFile link false (moment 2)

theorem twoFiles_reachable : Reachable twoFiles :=
  ((Reachable.empty 2 0 false .lru (by decide)).put firstFile link false (moment 1)).put
    secondFile link false (moment 2)

theorem evicts_when_needed_two :
    (∀ inv m, EvictsWhenNeeded twoFiles firstFile (twoFiles.put firstFile link inv m)) ∧
      ((∀ m, EvictsWhenNeeded twoFiles firstFile (twoFiles.putNew firstFile link m)) ↔
        Fits twoFiles firstFile) :=
  evicts_when_needed_iff twoFiles_reachable firstFile link

/-- A file created under a name that a full cache knows evicts the other file. -/
theorem putNew_evicts_other : Reachable twoFiles ∧
    ¬EvictsWhenNeeded twoFiles secondFile (twoFiles.putNew secondFile link (moment 3)) := by
  refine ⟨twoFiles_reachable, fun h => ?_⟩
  have hlost : Lost twoFiles secondFile (twoFiles.putNew secondFile link (moment 3))
      firstFile := by
    unfold Lost
    decide
  exact absurd (h _ hlost).full (by decide)

end TwoFiles

end Insertions

end ClientCacheEviction
