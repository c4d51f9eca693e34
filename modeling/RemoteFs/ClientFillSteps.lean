import RemoteFs.ClientCallSteps
import RemoteFs.ClientDirectoryListing
import RemoteFs.ClientReadBufferCoherence

/-! # What a call that fills the cache puts there, whatever happens between its steps

The server may be one or another while the call is under way. What the call takes from the
cache, from the read buffer and from the server was so on one of these, and so is what it puts. -/
namespace ClientFillSteps

open ClientAttributes
open ClientCache
open ClientCallSteps
open ClientDirectoryListing
open ClientFileSystem
open ClientKnowledge
open ClientKnowledgeReads
open ClientMemory
open ClientPageCache
open ClientReadBuffer
open ClientReadBufferCoherence
open Interleaving
open OsPaths
open RemoteTree

variable {L : PageLimits}

def current (r : Remote) (q : Path) : Facts where
  fresh := True
  itemType _ := True
  name _ := True
  attributes a := r.getAttributes q = some a
  children names := (∃ len, r.nodes q = some (.directory len)) ∧ Children r q names
  target s := r.readSymlink q = some s

def IsCurrent (r : Remote) (q : Path) (it : CacheItem L) : Prop :=
  Tells (current r q) (BytesAre (r.Holds q)) it

def anyOf (S : Remote → Prop) (q : Path) : Facts where
  fresh := True
  itemType _ := True
  name _ := True
  attributes a := ∃ r, S r ∧ (current r q).attributes a
  children names := ∃ r, S r ∧ (current r q).children names
  target s := ∃ r, S r ∧ (current r q).target s

def heldBy (S : Remote → Prop) (q : Path) (x : ℕ) (v : UInt8) : Prop := ∃ r, S r ∧ r.Holds q x v

def Recalls (S : Remote → Prop) (q : Path) (it : CacheItem L) : Prop :=
  Tells (anyOf S q) (BytesAre (heldBy S q)) it

/-- The server is one of `S`, and so was whatever the cache tells about the paths `inv`; of the
path `p` the read buffer serves, at the time `t`, only bytes as `P` says. -/
structure Known (S : Remote → Prop) (inv : Path → Prop) (p : Path) (t : ℕ)
    (P : ℕ → UInt8 → Prop) (fs : FileSystem L) : Prop where
  remote : S fs.remote
  entries : ∀ q, inv q → Entries fs q 0 (Recalls S q)
  buffer : ∀ x v, fs.readBuffer.byteAt t p x = some v → P x v

/-- A step on the client alone: it takes something out of memory, or what it puts was so on one
of the servers. -/
def Told (S : Remote → Prop) (inv : Path → Prop) (p : Path) : Effect L → Prop
  | .put q item _ => inv q → Recalls S q item ∧ (q ≠ p → Bare item)
  | .fill q offset data _ => q = p ∧
      ∀ x b, offset ≤ x → data[x - offset]? = some b → heldBy S p x b
  | .change (.carried q item) _ => inv q → Recalls S q item
  | .change (.removed _) _ => True
  | .change (.taken _ _) _ => True
  | .look => True
  | .get _ _ => True
  | .change _ _ => False
  | .serve _ => False

section Facts

variable {S : Remote → Prop} {r : Remote} {p q : Path} {it : CacheItem L}

theorem says_anyOf (hr : S r) : Says r q (anyOf S q) where
  name := trivial
  itemType _ _ := trivial
  attributes _ ha := ⟨r, hr, ha⟩
  target _ hs := ⟨r, hr, hs⟩

theorem IsCurrent.recalls (h : IsCurrent r q it) (hr : S r) : Recalls S q it :=
  h.mono ⟨id, fun _ => id, fun _ => id, fun _ ha => ⟨r, hr, ha⟩, fun _ hn => ⟨r, hr, hn⟩,
    fun _ hs => ⟨r, hr, hs⟩⟩ fun _ hf x v hx => ⟨r, hr, hf x v hx⟩

/-- With one server left, what is recalled is current. -/
theorem Recalls.isCurrent (h : Recalls S q it) (hS : ∀ r', S r' → r' = r) : IsCurrent r q it := by
  refine h.mono ⟨id, fun _ => id, fun _ => id, ?_, ?_, ?_⟩ ?_
  · rintro a ⟨r', hr', ha⟩
    exact hS r' hr' ▸ ha
  · rintro names ⟨r', hr', hn⟩
    exact hS r' hr' ▸ hn
  · rintro s ⟨r', hr', hs⟩
    exact hS r' hr' ▸ hs
  · intro f hf x v hx
    obtain ⟨r', hr', hv⟩ := hf x v hx
    exact hS r' hr' ▸ hv

theorem heldBy_readFile {o size : ℕ} {data : List UInt8} (hr : S r)
    (h : r.readFile p o size = some data) :
    ∀ x b, o ≤ x → data[x - o]? = some b → heldBy S p x b := by
  intro x b hx hb
  have hheld := holds_readFile h hb
  rw [Nat.add_sub_cancel' hx] at hheld
  exact ⟨r, hr, hheld⟩

end Facts

/-! The calls, step by step -/

section Calls

variable {S : Remote → Prop} {inv : Path → Prop} {p q : Path} {t : ℕ} {env : Env}

abbrev Fills {α : Type} (S : Remote → Prop) (inv : Path → Prop) (p : Path) (t : ℕ)
    (steps : Steps L α) (Q : α → Prop) : Prop :=
  steps.Meets (Known S inv p t (heldBy S p)) (Told S inv p) Q

theorem told_putNamed {item : OsString → CacheItem L} {m : Moment}
    (h : ∀ name, q.fileName = some name → inv q → Recalls S q (item name) ∧
      (q ≠ p → Bare (item name))) : Told S inv p (putNamed q item m) := by
  unfold putNamed
  cases hn : q.fileName with
  | none => trivial
  | some name => exact h name hn

theorem getAttributes_fills (q : Path) (env : Env) :
    Fills S inv p t (getAttributes q env : Steps L _) fun res =>
      ∀ a, res = .ok a → inv q → (anyOf S q).attributes a := by
  unfold getAttributes
  refine Program.meets_step (fun _ _ => trivial) fun fs h => ?_
  split
  · rename_i a hget
    rintro b hb hq
    obtain ⟨it, hit, hattr⟩ := Option.bind_eq_some_iff.mp hget
    rw [cacheGet_entry] at hit
    have htold := h.entries q hq it (entry_earlier (Nat.zero_le _) hit)
    exact Except.ok.inj hb ▸ htold.attributes a hattr
  · refine Program.meets_step (fun _ _ => trivial) fun fs h => ?_
    split
    · exact nofun
    · rename_i a hsent
      have ha := (FileSystem.sent_ok.mp hsent).2.2
      refine fun _ _ => ⟨told_putNamed fun name hn _ => ?_, fun b hb _ => ?_⟩
      · obtain ⟨hbare, -⟩ := bare_ofAttributes (L := L) name a
        exact ⟨tells_ofAttributes bytesAre_aboutPages (says_anyOf h.remote) trivial hn ha,
          fun _ => hbare⟩
      · exact Except.ok.inj hb ▸ ⟨fs.remote, h.remote, ha⟩

theorem readSymlink_fills (p : Path) (env : Env) :
    Fills S inv p t (readSymlink p env : Steps L _) fun _ => True := by
  unfold readSymlink
  refine Program.meets_step (fun _ _ => trivial) fun fs h => ?_
  split
  · trivial
  · refine Program.meets_step (fun _ _ => trivial) fun fs h => ?_
    split
    · trivial
    · rename_i target hsent
      have htarget := (FileSystem.sent_ok.mp hsent).2.2
      refine fun _ _ => ⟨told_putNamed fun name _ _ => ⟨?_, fun _ => trivial⟩, trivial⟩
      refine ⟨⟨nofun, nofun⟩, trivial, trivial, trivial, nofun, fun s hs => ?_⟩
      exact Option.some.inj hs ▸ ⟨fs.remote, h.remote, htarget⟩

theorem told_putBytes {o : ℕ} {data : List UInt8} {m : Moment}
    (hdata : ∀ x b, o ≤ x → data[x - o]? = some b → heldBy S p x b) :
    Told S inv p (putBytes p o data m : Effect L) := by
  refine told_putNamed fun name hname _ => ⟨?_, fun hne => (hne rfl).elim⟩
  have hw : written L p o data = (CachedFile.new name none).writeContent o data := by
    rw [written, hname, Option.getD_some]
  rw [← hw]
  exact tells_written trivial trivial trivial hdata

theorem readRemote_fills (o s : ℕ) (env : Env) :
    Fills S inv p t (readRemote p o s env : Steps L _) fun _ => True := by
  unfold readRemote
  refine Program.meets_step (fun _ _ => trivial) fun fs h => ?_
  split
  · trivial
  · rename_i data hsent
    have hdata := heldBy_readFile h.remote (FileSystem.sent_ok.mp hsent).2.2
    exact fun _ _ => ⟨⟨rfl, hdata⟩, fun _ _ => ⟨told_putBytes hdata, trivial⟩⟩

theorem readBuffered_fills (o s : ℕ) (ht : ∀ i, t ≤ (env i).now) :
    Fills S inv p t (readBuffered p o s env : Steps L _) fun _ => True := by
  unfold readBuffered
  refine Program.meets_step (fun _ _ => trivial) fun fs h => ?_
  dsimp only
  split
  · refine fun _ _ => ⟨told_putBytes fun x b hx hb => ?_, trivial⟩
    have hserved := (ReadBuffer.read_getElem? hb).1
    rw [Nat.add_sub_cancel' hx] at hserved
    exact h.buffer x b (ReadBuffer.byteAt_later (ht 0) hserved)
  · exact readRemote_fills o s _

theorem readCached_fills (o s : ℕ) (ht : ∀ i, t ≤ (env i).now) :
    Fills S inv p t (readCached p o s env : Steps L _) fun _ => True := by
  unfold readCached
  refine Program.meets_step (fun _ _ => trivial) fun fs _ => ?_
  dsimp only
  split
  · trivial
  · exact readBuffered_fills o s fun i => ht (1 + i)

theorem readFile_fills (o s : ℕ) (ht : ∀ i, t ≤ (env i).now) :
    Fills S inv p t (readFile p o s env : Steps L _) fun _ => True := by
  unfold readFile
  refine Program.meets_bind (getAttributes_fills p env) fun res _ => ?_
  cases res with
  | error e => exact readCached_fills o s fun i => ht (3 + i)
  | ok a =>
    dsimp only
    split
    · trivial
    · exact readCached_fills o s fun i => ht (3 + i)

theorem cachedChildren_fills (q : Path) (children : List OsString) : ∀ env : Env,
    Fills S inv p t (cachedChildren q children env : Steps L _) fun _ => True := by
  induction children with
  | nil => exact fun _ => trivial
  | cons child children ih =>
    intro env
    rw [cachedChildren]
    refine Program.meets_step (fun _ _ => trivial) fun fs _ => ?_
    split
    · trivial
    · exact Program.meets_bind (ih _) fun _ _ => trivial

theorem withDots_fills (q : Path) (items : List Item) (env : Env) :
    Fills S inv p t (withDots q items env : Steps L _) fun _ => True := by
  unfold withDots
  refine Program.meets_bind (getAttributes_fills q env) fun self _ => ?_
  cases self with
  | error e => trivial
  | ok a =>
    refine Program.meets_bind (getAttributes_fills _ _) fun parent _ => ?_
    cases parent <;> trivial

theorem putListed_fills {r : Remote} {names : List String} {items : List Item} (hr : S r)
    (hl : r.listPath q names = some items) (rest : List Item) : ∀ env : Env,
      (∀ item ∈ rest, item ∈ items) →
        Fills S inv p t (putListed q rest env : Steps L _) fun _ => True := by
  induction rest with
  | nil => exact fun _ _ => trivial
  | cons item rest ih =>
    intro env hmem fs _
    refine ⟨fun _ => ⟨?_, fun _ => (bare_ofListed item).1⟩,
      ih _ fun i hi => hmem i (List.mem_cons_of_mem _ hi)⟩
    exact tells_ofListed bytesAre_aboutPages (says_anyOf hr) trivial hl
      (hmem item List.mem_cons_self)

theorem readdirRemote_fills (hl : ∀ r, S r → ListsAll r p env) :
    Fills S inv p t (readdirRemote p env : Steps L _) fun _ => True := by
  unfold readdirRemote
  refine Program.meets_step (fun _ _ => trivial) fun fs h => ?_
  split
  · trivial
  · rename_i items hsent
    obtain ⟨-, hreply, hlist⟩ := FileSystem.sent_ok.mp hsent
    refine Program.meets_bind (getAttributes_fills p _) fun self hself => ?_
    cases self with
    | error e => trivial
    | ok a =>
      refine fun _ _ => ⟨fun hp => ⟨⟨⟨nofun, fun b hb => ?_⟩, trivial, trivial, trivial,
        fun names hn => ?_, nofun⟩, fun _ => trivial⟩, ?_⟩
      · exact Option.some.inj hb ▸ hself a rfl hp
      · have hdir : ∃ len, fs.remote.nodes p = some (.directory len) := by
          unfold Remote.listPath at hlist
          split at hlist
          · exact ⟨_, by assumption⟩
          · cases hlist
        exact Option.some.inj hn ▸
          ⟨fs.remote, h.remote, hdir, children_of_listPath (hl _ h.remote) hreply hlist⟩
      · exact Program.meets_bind (putListed_fills h.remote hlist items _ fun _ hi => hi)
          fun _ _ => withDots_fills p items _

theorem readdir_fills (hl : ∀ r, S r → ListsAll r p env) :
    Fills S inv p t (readdir p env : Steps L _) fun _ => True := by
  have hremote : ∀ k, Fills S inv p t (readdirRemote p (env.drop k) : Steps L _) fun _ => True :=
    fun k => readdirRemote_fills fun r hr i => hl r hr (k + i)
  unfold readdir
  refine Program.meets_step (fun _ _ => trivial) fun fs _ => ?_
  split
  · refine Program.meets_bind (cachedChildren_fills p _ _) fun hit _ => ?_
    cases hit with
    | none => exact hremote _
    | some items => exact withDots_fills p items _
  · exact hremote 1

theorem discard_fills {α : Type} {steps : Steps L (Except FsModelError α)}
    {Q : Except FsModelError α → Prop} (h : Fills S inv p t steps Q) :
    Fills S inv p t (discard steps) fun _ => True :=
  Program.meets_bind h fun _ _ => trivial

/-- All that a filling call puts was so on one of the servers that it met. -/
theorem filler_fills (filler : Filler) (ht : ∀ i, t ≤ (env i).now)
    (hl : filler = .readdir → ∀ r, S r → ListsAll r p env) :
    Fills S inv p t (filler.steps p env : Steps L _) fun _ => True := by
  cases filler with
  | getAttributes => exact discard_fills (getAttributes_fills p env)
  | readFile o s => exact discard_fills (readFile_fills o s ht)
  | readdir => exact discard_fills (readdir_fills (hl rfl))
  | readSymlink => exact discard_fills (readSymlink_fills p env)

end Calls

/-! What such a step leaves -/

def GapsFit (p : Path) (fs : FileSystem L) : Effect L → Prop
  | .put q (.file w) _ => q = p → ∀ f, held fs p = some (.file f) →
      GapsAre (fs.remote.Holds p) w f
  | _ => True

section Steps

variable {S : Remote → Prop} {inv : Path → Prop} {p q : Path} {t : ℕ} {P : ℕ → UInt8 → Prop}
  {fs : FileSystem L} {e : Effect L} {item : CacheItem L} {m : Moment}

theorem told_remote (he : Told S inv p e) : (e.apply fs).remote = fs.remote := by
  cases e with
  | look => rfl
  | get q m => exact (cacheGet_frame fs q m).1
  | put q item m => rfl
  | fill q o data now => rfl
  | serve r => exact he.elim
  | change c m => rfl

theorem Known.put (h : Known S inv p t P fs) (hitem : Recalls S q item ∧ (q ≠ p → Bare item))
    (hgap : GapsFit p fs (.put q item m)) (hq : inv q) :
    Entries (fs.onCache fun c => c.put q item false m) q 0 (Recalls S q) := by
  refine put_entry_self (fun _ _ => hitem.1) fun old hold => ?_
  have htold := h.entries q hq old hold
  refine update_tells htold hitem.1 (fun _ => id) ?_ (fun _ _ => id) (fun _ _ => id) fun _ _ => id
  by_cases hqp : q = p
  · subst hqp
    cases item with
    | file w =>
      refine update_written_file (fun f hf x b hb => Or.inl (htold.file f hf x b hb))
        (hitem.1.file w rfl) fun f hf x hx => ?_
      exact ⟨fs.remote, h.remote, hgap rfl f (hf ▸ hold) x hx⟩
    | symLink l =>
      intro f hf
      cases old <;> cases hf
    | directory d =>
      intro f hf
      cases old <;> cases hf
  · exact update_bare_file bytesAre_aboutPages htold.file (hitem.2 hqp)

theorem Known.change {c : Change L} (h : Known S inv p t P fs) (he : Told S inv p (.change c m))
    (hq : inv q) : Entries (fs.onCache fun cache => c.apply m cache) q 0 (Recalls S q) := by
  cases c with
  | carried a item =>
    by_cases haq : a = q
    · subst haq
      intro it hit
      obtain ⟨cache, -, hfresh⟩ := entry_onCache hit
      rw [Cache.putNew_self hfresh]
      exact he hq
    · exact (h.entries q hq).onCache fun _ _ _ hit => Or.inl (Cache.putNew_ne (Ne.symm haq) hit)
  | removed a => exact (h.entries q hq).onCache_sub fun cache => Cache.remove_sub cache a
  | taken a b => exact (h.entries q hq).onCache_sub fun cache => Cache.remove_sub cache a
  | written w => exact he.elim
  | created a attr => exact he.elim
  | attributes a attr => exact he.elim

theorem Known.told (h : Known S inv p t P fs) (he : Told S inv p e) (hgap : GapsFit p fs e)
    (hP : ∀ x v, heldBy S p x v → P x v) : Known S inv p t P (e.apply fs) where
  remote := (told_remote he).symm ▸ h.remote
  entries q' hq' := by
    cases e with
    | look => exact h.entries q' hq'
    | get q m => exact (h.entries q' hq').cacheGet q m
    | put q item m =>
      by_cases hqq : q = q'
      · subst hqq
        exact h.put (he hq') hgap hq'
      · exact (h.entries q' hq').put_ne hqq
    | fill q o data now => exact h.entries q' hq'
    | serve r => exact he.elim
    | change c m => exact h.change he hq'
  buffer x v hx := by
    cases e with
    | look => exact h.buffer x v hx
    | get q m =>
      have hbuffer := (cacheGet_frame fs q m).2.1
      exact h.buffer x v (hbuffer ▸ hx)
    | put q item m => exact h.buffer x v hx
    | fill q o data now =>
      obtain ⟨-, hle, hb⟩ := ReadBuffer.byteAt_fill hx
      exact hP x v (he.2 x v hle hb)
    | serve r => exact he.elim
    | change c m => exact h.buffer x v hx

end Steps

end ClientFillSteps
