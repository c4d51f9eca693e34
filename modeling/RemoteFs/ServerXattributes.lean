import RemoteFs.ServerDatabase
import Mathlib.Data.List.Nodup
import Mathlib.Data.List.Sort
import Mathlib.Data.String.Basic

/-! # The extended attributes of the server

The table's primary key is the path with the name. Setting an attribute inserts its row or, where
the key is taken, updates it; `UPDATE … WHERE path = ? AND name = ?` is bound to the name first and
to the path second, so it addresses the row of the swapped key. -/
namespace ServerXattributes

open SqlTable
open ServerDatabase

structure Row where
  path : String
  name : String
  xattributes : List UInt8
  deriving DecidableEq, Repr

/-- `PRIMARY KEY (path, name)` -/
abbrev SameKey (a b : Row) : Prop := a.path = b.path ∧ a.name = b.name

abbrev Xattributes := Table SameKey

abbrev Result (α : Type) := Except DatabaseError α × Xattributes

def keyed (path name : String) (r : Row) : Bool := decide (r.path = path ∧ r.name = name)

def atPath (path : String) (r : Row) : Bool := decide (r.path = path)

def executeQuery (t : Xattributes) (written : Option Xattributes) : Result Unit :=
  match execute t written with
  | (.ok (), t') => (.ok (), t')
  | (.error e, t') => (.error (.query e), t')

def setXAttributes (t : Xattributes) (path name : String) (xattributes : List UInt8) :
    Result Unit :=
  match decodeU8 (t.count (keyed path name)) with
  | .error e => (.error (.query e), t)
  | .ok result =>
    if result = 0 then
      executeQuery t (t.insert ⟨path, name, xattributes⟩)
    else
      -- bound as `xattributes, name, path`
      executeQuery t (t.update (keyed name path) fun r => { r with xattributes := xattributes })

def removeAllXAttributes (t : Xattributes) (path : String) : Result Unit :=
  (.ok (), t.delete (atPath path))

def removeXAttributes (t : Xattributes) (path name : String) : Result Unit :=
  (.ok (), t.delete (keyed path name))

/-- The rows are found by the index of the key, so the names come in its order. -/
def listXAttributes (t : Xattributes) (path : String) : Result (List String) :=
  (.ok (((t.select (atPath path)).map Row.name).insertionSort (· ≤ ·)), t)

def getXAttributes (t : Xattributes) (path name : String) : Result (Option (List UInt8)) :=
  (.ok ((t.select (keyed path name)).head?.map Row.xattributes), t)

inductive Call where
  | set (path name : String) (xattributes : List UInt8)
  | remove (path name : String)
  | removeAll (path : String)
  | list (path : String)
  | get (path name : String)
  deriving DecidableEq, Repr

inductive Reply where
  | done
  | names (names : List String)
  | value (xattributes : Option (List UInt8))
  deriving DecidableEq, Repr

def reply {α : Type} (f : α → Reply) (r : Result α) : Result Reply := (r.1.map f, r.2)

def call (t : Xattributes) : Call → Result Reply
  | .set path name xattributes => reply (fun _ => .done) (setXAttributes t path name xattributes)
  | .remove path name => reply (fun _ => .done) (removeXAttributes t path name)
  | .removeAll path => reply (fun _ => .done) (removeAllXAttributes t path)
  | .list path => reply .names (listXAttributes t path)
  | .get path name => reply .value (getXAttributes t path name)

section Rows

variable {t : Xattributes} {r : Row} {path name : String}

@[simp] theorem keyed_iff : keyed path name r = true ↔ r.path = path ∧ r.name = name :=
  decide_eq_true_iff

@[simp] theorem atPath_iff : atPath path r = true ↔ r.path = path := decide_eq_true_iff

theorem keyed_conflict (a b : Row) (ha : keyed path name a = true)
    (hb : keyed path name b = true) : SameKey a b := by
  rw [keyed_iff] at ha hb
  exact ⟨ha.1.trans hb.1.symm, ha.2.trans hb.2.symm⟩

theorem decode_count (t : Xattributes) (path name : String) :
    decodeU8 (t.count (keyed path name)) = .ok (t.count (keyed path name)) :=
  decodeU8_le_one (Table.count_le_one keyed_conflict)

theorem update_xattributes (t : Xattributes) (p : Row → Bool) (xattributes : List UInt8) :
    ∃ t', t.update p (fun r => { r with xattributes := xattributes }) = some t' ∧
      t'.rows = t.updated p fun r => { r with xattributes := xattributes } := by
  refine Table.update_ok fun a _ b _ hc => ?_
  split at hc <;> split at hc <;> exact hc

end Rows

/-! The map that the table stands for -/

abbrev AttrMap := String → String → Option (List UInt8)

def attrs (t : Xattributes) : AttrMap := fun path name =>
  (t.select (keyed path name)).head?.map Row.xattributes

namespace AttrMap

def put (a : AttrMap) (path name : String) (v : Option (List UInt8)) : AttrMap :=
  fun path' name' => if path' = path ∧ name' = name then v else a path' name'

def drop (a : AttrMap) (path : String) : AttrMap :=
  fun path' name' => if path' = path then none else a path' name'

def apply (a : AttrMap) : Call → AttrMap
  | .set path name xattributes => a.put path name (some xattributes)
  | .remove path name => a.put path name none
  | .removeAll path => a.drop path
  | .list _ => a
  | .get _ _ => a

/-- A reply that the map gives: a listing has every name once, in any order. -/
def Answers (a : AttrMap) : Call → Reply → Prop
  | .list path, .names names => names.Nodup ∧ ∀ name, name ∈ names ↔ a path name ≠ none
  | .get path name, .value v => v = a path name
  | .set _ _ _, .done => True
  | .remove _ _, .done => True
  | .removeAll _, .done => True
  | _, _ => False

end AttrMap

def Meets (t : Xattributes) (c : Call) : Prop :=
  ∃ r, (call t c).1 = .ok r ∧ (attrs t).Answers c r ∧ attrs (call t c).2 = (attrs t).apply c

def Behaves (t : Xattributes) : List Call → Prop
  | [] => True
  | c :: cs => Meets t c ∧ Behaves (call t c).2 cs

section Attrs

variable {t t' : Xattributes} {r : Row} {path name : String} {v : List UInt8}

theorem attrs_eq_some : attrs t path name = some v ↔ ⟨path, name, v⟩ ∈ t.rows := by
  unfold attrs
  constructor
  · intro h
    obtain ⟨r, hr, hv⟩ := Option.map_eq_some_iff.mp h
    obtain ⟨hm, hk⟩ := (Table.head_select_eq_some keyed_conflict).mp hr
    obtain ⟨hp, hn⟩ := keyed_iff.mp hk
    rw [← hp, ← hn, ← hv]
    exact hm
  · intro h
    rw [(Table.head_select_eq_some keyed_conflict).mpr ⟨h, keyed_iff.mpr ⟨rfl, rfl⟩⟩]
    rfl

theorem attrs_eq_none :
    attrs t path name = none ↔ ∀ r ∈ t.rows, keyed path name r = false := by
  rw [attrs, Option.map_eq_none_iff, Table.head_select_eq_none]

theorem attrs_ne_none :
    attrs t path name ≠ none ↔ ∃ r ∈ t.rows, r.path = path ∧ r.name = name := by
  rw [Option.ne_none_iff_exists']
  constructor
  · rintro ⟨v, hv⟩
    exact ⟨_, attrs_eq_some.mp hv, rfl, rfl⟩
  · rintro ⟨r, hr, rfl, rfl⟩
    exact ⟨r.xattributes, attrs_eq_some.mpr hr⟩

/-- Two tables with the same rows under the other keys hold the same there. -/
theorem attrs_congr (h : ∀ v, ⟨path, name, v⟩ ∈ t'.rows ↔ ⟨path, name, v⟩ ∈ t.rows) :
    attrs t' path name = attrs t path name := by
  refine Option.ext fun v => ?_
  rw [attrs_eq_some, attrs_eq_some]
  exact h v

theorem names_nodup (t : Xattributes) (path : String) :
    (((t.select (atPath path)).map Row.name).insertionSort (· ≤ ·)).Nodup := by
  refine (List.perm_insertionSort (· ≤ ·) _).nodup_iff.mpr (List.pairwise_map.mpr ?_)
  refine (t.distinct.filter (atPath path)).imp_of_mem fun ha hb hab hn => hab ⟨?_, hn⟩
  exact (atPath_iff.mp (Table.mem_select.mp ha).2).trans
    (atPath_iff.mp (Table.mem_select.mp hb).2).symm

theorem mem_names :
    name ∈ ((t.select (atPath path)).map Row.name).insertionSort (· ≤ ·) ↔
      attrs t path name ≠ none := by
  rw [List.mem_insertionSort, attrs_ne_none]
  constructor
  · intro h
    obtain ⟨r, hr, hn⟩ := List.mem_map.mp h
    obtain ⟨hm, hp⟩ := Table.mem_select.mp hr
    exact ⟨r, hm, atPath_iff.mp hp, hn⟩
  · rintro ⟨r, hr, hp, hn⟩
    exact List.mem_map.mpr ⟨r, Table.mem_select.mpr ⟨hr, atPath_iff.mpr hp⟩, hn⟩

end Attrs

section Calls

variable {t t' : Xattributes} {path name : String} {v : List UInt8}

theorem attrs_insert (h : t'.rows = t.rows ++ [⟨path, name, v⟩]) (hn : attrs t path name = none) :
    attrs t' = (attrs t).put path name (some v) := by
  funext path' name'
  unfold AttrMap.put
  split
  · rename_i hk
    obtain ⟨rfl, rfl⟩ := hk
    refine attrs_eq_some.mpr ?_
    rw [h]
    exact List.mem_append_right _ (List.mem_singleton_self _)
  · rename_i hk
    refine attrs_congr fun w => ?_
    rw [h, List.mem_append, List.mem_singleton]
    constructor
    · rintro (hm | hm)
      · exact hm
      · injection hm with hp hq
        exact (hk ⟨hp, hq⟩).elim
    · exact Or.inl

theorem attrs_update
    (h : t'.rows = t.updated (keyed path name) fun r => { r with xattributes := v }) :
    attrs t' = if attrs t path name = none then attrs t
      else (attrs t).put path name (some v) := by
  split
  · rename_i hn
    rw [Table.updated_none (attrs_eq_none.mp hn)] at h
    rw [Table.ext_rows h]
  · rename_i hn
    obtain ⟨r, hr, hp, hq⟩ := attrs_ne_none.mp hn
    funext path' name'
    unfold AttrMap.put
    split
    · rename_i hk
      obtain ⟨rfl, rfl⟩ := hk
      refine attrs_eq_some.mpr ?_
      rw [h]
      refine List.mem_map.mpr ⟨r, hr, ?_⟩
      rw [if_pos (keyed_iff.mpr ⟨hp, hq⟩)]
      dsimp only
      rw [hp, hq]
    · rename_i hk
      refine attrs_congr fun w => ?_
      rw [h]
      refine Iff.trans List.mem_map ⟨?_, fun hm => ⟨_, hm, if_neg ?_⟩⟩
      · rintro ⟨s, hs, he⟩
        split at he
        · rename_i hks
          obtain ⟨hsp, hsn⟩ := keyed_iff.mp hks
          injection he with hp' hn' _
          exact (hk ⟨hp'.symm.trans hsp, hn'.symm.trans hsn⟩).elim
        · rw [← he]
          exact hs
      · rw [keyed_iff]
        exact hk

theorem attrs_delete_keyed :
    attrs (t.delete (keyed path name)) = (attrs t).put path name none := by
  funext path' name'
  unfold AttrMap.put
  split
  · rename_i hk
    obtain ⟨rfl, rfl⟩ := hk
    refine attrs_eq_none.mpr fun r hr => ?_
    exact (Table.mem_delete.mp hr).2
  · rename_i hk
    refine attrs_congr fun w => ?_
    rw [Table.mem_delete, Bool.eq_false_iff, Ne, keyed_iff]
    exact and_iff_left hk

theorem attrs_delete_atPath : attrs (t.delete (atPath path)) = (attrs t).drop path := by
  funext path' name'
  unfold AttrMap.drop
  split
  · rename_i hk
    obtain rfl := hk
    refine attrs_eq_none.mpr fun r hr => ?_
    have hp := (Table.mem_delete.mp hr).2
    rw [Bool.eq_false_iff, Ne, atPath_iff] at hp
    rw [Bool.eq_false_iff, Ne, keyed_iff]
    exact fun hk => hp hk.1
  · rename_i hk
    refine attrs_congr fun w => ?_
    rw [Table.mem_delete, Bool.eq_false_iff, Ne, atPath_iff]
    exact and_iff_left hk

/-- A set always answers. It writes the key where the key is free, and the swapped key, if there is
one, where it is taken. -/
theorem set_spec (t : Xattributes) (path name : String) (v : List UInt8) :
    (setXAttributes t path name v).1 = .ok () ∧
    attrs (setXAttributes t path name v).2 =
      if attrs t path name = none then (attrs t).put path name (some v)
      else if attrs t name path = none then attrs t
      else (attrs t).put name path (some v) := by
  unfold setXAttributes
  rw [decode_count]
  dsimp only
  by_cases hn : attrs t path name = none
  · rw [if_pos (Table.count_eq_zero.mpr (attrs_eq_none.mp hn)), if_pos hn]
    have hfree : ∀ r ∈ t.rows, ¬SameKey r ⟨path, name, v⟩ := by
      intro r hr hk
      have := attrs_eq_none.mp hn r hr
      rw [Bool.eq_false_iff, Ne, keyed_iff] at this
      exact this hk
    obtain ⟨t', ht, hrows⟩ := Table.insert_ok hfree
    rw [ht]
    exact ⟨rfl, attrs_insert hrows hn⟩
  · have hc : t.count (keyed path name) ≠ 0 := fun hc =>
      hn (attrs_eq_none.mpr (Table.count_eq_zero.mp hc))
    rw [if_neg hc, if_neg hn]
    obtain ⟨t', ht, hrows⟩ := update_xattributes t (keyed name path) v
    rw [ht]
    exact ⟨rfl, attrs_update hrows⟩

end Calls

/-! When a set does what the map does -/

namespace AttrMap

/-- The key is free, or equal to its swap, or a set that changes nothing at either key. -/
def Safe (a : AttrMap) : Call → Prop
  | .set path name v =>
    a path name = none ∨ path = name ∨
      a path name = some v ∧ (a name path = none ∨ a name path = some v)
  | _ => True

def AllSafe (a : AttrMap) : List Call → Prop
  | [] => True
  | c :: cs => a.Safe c ∧ AllSafe (a.apply c) cs

variable {a : AttrMap} {path name : String} {v : Option (List UInt8)}

theorem put_self : a.put path name v path name = v := if_pos ⟨rfl, rfl⟩

theorem put_eq_self (h : a path name = v) : a.put path name v = a := by
  funext path' name'
  unfold put
  split
  · rename_i hk
    rw [hk.1, hk.2, h]
  · rfl

theorem put_swap_ne (h : path ≠ name) : a.put name path v path name = a path name :=
  if_neg fun hk => h hk.1

/-- What a set of a taken key does to the map is what it should do just where the set is safe. -/
theorem swapped_iff {v : List UInt8} (h : a path name ≠ none) :
    (if a name path = none then a else a.put name path (some v)) = a.put path name (some v) ↔
      a.Safe (.set path name v) := by
  by_cases hpn : path = name
  · subst hpn
    rw [if_neg h]
    exact ⟨fun _ => .inr (.inl rfl), fun _ => rfl⟩
  constructor
  · intro he
    have hself : a path name = some v := by
      have hput : a.put path name (some v) path name = some v := put_self
      rw [← hput, ← he]
      split
      · rfl
      · exact (put_swap_ne hpn).symm
    refine .inr (.inr ⟨hself, ?_⟩)
    rw [put_eq_self hself] at he
    split at he
    · exact .inl (by assumption)
    · rw [← he]
      exact .inr put_self
  · rintro (hf | he | ⟨hself, hswap⟩)
    · exact (h hf).elim
    · exact (hpn he).elim
    · rw [put_eq_self hself]
      split
      · rfl
      · rename_i hs
        exact put_eq_self (hswap.resolve_left hs)

end AttrMap

variable {t : Xattributes} {c : Call}

theorem meets_iff : Meets t c ↔ (attrs t).Safe c := by
  cases c with
  | set path name v =>
    obtain ⟨hok, hattrs⟩ := set_spec t path name v
    have heq : Meets t (.set path name v) ↔
        attrs (setXAttributes t path name v).2 = (attrs t).put path name (some v) := by
      unfold Meets call reply
      dsimp only
      rw [hok]
      exact ⟨fun ⟨_, _, _, h⟩ => h, fun h => ⟨.done, rfl, trivial, h⟩⟩
    rw [heq, hattrs]
    split
    · rename_i hn
      exact iff_of_true rfl (.inl hn)
    · rename_i hn
      exact AttrMap.swapped_iff hn
  | remove path name => exact iff_of_true ⟨_, rfl, trivial, attrs_delete_keyed⟩ trivial
  | removeAll path => exact iff_of_true ⟨_, rfl, trivial, attrs_delete_atPath⟩ trivial
  | list path => exact iff_of_true ⟨_, rfl, ⟨names_nodup t path, fun _ => mem_names⟩, rfl⟩ trivial
  | get path name => exact iff_of_true ⟨_, rfl, rfl, rfl⟩ trivial

/-- The table behaves as the map in a run just where every set of the run is safe. -/
theorem behaves_iff (t : Xattributes) (calls : List Call) :
    Behaves t calls ↔ (attrs t).AllSafe calls := by
  induction calls generalizing t with
  | nil => exact Iff.rfl
  | cons c cs ih =>
    refine and_congr_right_iff.mpr ?_ |>.trans (and_congr_left' meets_iff)
    rintro ⟨_, _, _, hattrs⟩
    rw [ih, hattrs]

/-- A second set of one key answers `Ok` and leaves the first value. -/
theorem second_set_is_lost :
    let t := (setXAttributes (Table.empty SameKey) "/f" "user.a" [1]).2
    let r := setXAttributes t "/f" "user.a" [2]
    r.1 = .ok () ∧ (getXAttributes r.2 "/f" "user.a").1 = .ok (some [1]) ∧
      ¬Behaves (Table.empty SameKey) [.set "/f" "user.a" [1], .set "/f" "user.a" [2]] := by
  refine ⟨by decide, by decide, ?_⟩
  rintro ⟨_, hsecond, _⟩
  revert hsecond
  rw [meets_iff]
  unfold AttrMap.Safe
  decide

end ServerXattributes
