import RemoteFs.UnixFrontEnd

/-! # What a handle stands for

`CURRENT_FH` counts up and wraps around, so a handle is given out again after `2 ^ 64` openings.
Until then it stands for the path it was opened with, whatever happens to the file there. -/
namespace UnixHandles

open ClientAttributes
open ClientFileSystem
open ClientModeBits
open ClientPageCache
open OsPaths
open RemoteTree
open UnixFrontEnd

variable {L : PageLimits} {s s' : Fs L} {c : Call} {parts : Parts} {fh : UInt64} {p : Path}

def opens : Call → Option Path
  | .create parent name _ _ => some (parent.child name)
  | .openFile path _ => some path
  | .opendir path => some path
  | _ => none

/-- The handle that the call gives up, whatever it answers. -/
def closes : Call → Option UInt64
  | .release _ fh _ => some fh
  | .releasedir _ fh => some fh
  | _ => none

def handle : Except Failure Reply → Option UInt64
  | .ok (.opened fh) => some fh
  | .ok (.created _ fh) => some fh
  | _ => none

def named (fh : UInt64) (p : Path) : Call → Call
  | .getattr none (some h) => .getattr (if h = fh then some p else none) (some h)
  | .setattr none (some h) new => .setattr (if h = fh then some p else none) (some h) new
  | .read none h offset size => .read (if h = fh then some p else none) h offset size
  | .write none h offset data => .write (if h = fh then some p else none) h offset data
  | .flush none h => .flush (if h = fh then some p else none) h
  | .release none h flushes => .release (if h = fh then some p else none) h flushes
  | .fsync none h => .fsync (if h = fh then some p else none) h
  | .copyFileRange a h offsetIn b k offsetOut length =>
    .copyFileRange (if a = none ∧ h = fh then some p else a) h offsetIn
      (if b = none ∧ k = fh then some p else b) k offsetOut length
  | .fallocate none h offset mode => .fallocate (if h = fh then some p else none) h offset mode
  | c => c

def Through (fh : UInt64) : Call → Prop
  | .getattr none (some h) => h = fh
  | .setattr none (some h) _ => h = fh
  | .read none h _ _ => h = fh
  | .write none h _ _ => h = fh
  | .flush none h => h = fh
  | .release none h _ => h = fh
  | .fsync none h => h = fh
  | .copyFileRange a h _ b k _ _ => a = none ∧ h = fh ∨ b = none ∧ k = fh
  | .fallocate none h _ _ => h = fh
  | _ => False

def openings (results : List (Except Failure Reply)) : ℕ :=
  results.countP fun r => (handle r).isSome

/-! What a call does to the table -/

def Keeps (s s' : Fs L) : Prop :=
  s'.currentFh = s.currentFh ∧ s'.fileHandlers = s.fileHandlers

theorem Keeps.refl (s : Fs L) : Keeps s s := ⟨rfl, rfl⟩

theorem Keeps.trans {s₁ s₂ s₃ : Fs L} (h : Keeps s₁ s₂) (h' : Keeps s₂ s₃) : Keeps s₁ s₃ :=
  ⟨h'.1.trans h.1, h'.2.trans h.2⟩

section Parts

variable {α β : Type}

theorem keeps_on (s : Fs L) (done : Except FsModelError α × FileSystem L) :
    Keeps s (s.on done).2 := ⟨rfl, rfl⟩

theorem keeps_forget (s : Fs L) (p : Path) : Keeps s (s.forget p) := ⟨rfl, rfl⟩

theorem keeps_batchForget (paths : List Path) : ∀ s : Fs L, Keeps s (s.batchForget paths) := by
  induction paths with
  | nil => exact fun s => .refl s
  | cons p paths ih => exact fun s => (keeps_forget s p).trans (ih _)

theorem keeps_atPath {path : Except Failure Path} {next : Path → UnixFrontEnd.Result L α}
    (h : ∀ p, Keeps s (next p).2) : Keeps s (s.atPath path next).2 := by
  unfold Fs.atPath
  split
  · exact h _
  · exact .refl s

theorem keeps_withType {mode : UInt32} {next : UnixFrontEnd.Result L α} (h : Keeps s next.2) :
    Keeps s (s.withType mode next).2 := by
  unfold Fs.withType
  split
  · exact .refl s
  · exact h

theorem keeps_andThen {r : UnixFrontEnd.Result L α} {next : α → Fs L → UnixFrontEnd.Result L β}
    (hr : Keeps s r.2) (h : ∀ a s', Keeps s s' → Keeps s (next a s').2) :
    Keeps s (Fs.andThen r next).2 := by
  obtain ⟨e | a, s'⟩ := r
  · exact hr
  · exact h a s' hr

end Parts

inductive Changes (s s' : Fs L) (c : Call) (r : Except Failure Reply) : Prop
  | keeps (hc : closes c = none) (hr : handle r = none) (h : Keeps s s')
  | opened (p : Path) (hc : closes c = none) (ho : opens c = some p)
      (hr : handle r = some s.currentFh) (hnext : s'.currentFh = s.currentFh + 1)
      (htable : s'.fileHandlers = Function.update s.fileHandlers s.currentFh (some p))
  | closed (fh : UInt64) (hc : closes c = some fh) (hr : handle r = none)
      (hnext : s'.currentFh = s.currentFh)
      (htable : s'.fileHandlers = Function.update s.fileHandlers fh none)

theorem handle_replied {α : Type} {reply : α → Reply} (r : UnixFrontEnd.Result L α)
    (h : ∀ a, handle (.ok (reply a)) = none) : handle (replied reply r).1 = none := by
  obtain ⟨e | a, s'⟩ := r
  · rfl
  · exact h a

theorem changes_none {α : Type} {reply : α → Reply} {r : UnixFrontEnd.Result L α}
    (hc : closes c = none) (h : ∀ a, handle (.ok (reply a)) = none) (hk : Keeps s r.2) :
    Changes s (replied reply r).2 c (replied reply r).1 :=
  .keeps hc (handle_replied r h) hk

theorem changes_opened (hc : closes c = none) (ho : opens c = some p) (hk : Keeps s s') :
    Changes s (s'.opened p).2 c (replied .opened (s'.opened p)).1 := by
  obtain ⟨hcur, htable⟩ := hk
  refine .opened p hc ho ?_ ?_ ?_
  · rw [← hcur]; rfl
  · rw [← hcur]; rfl
  · rw [← hcur, ← htable]; rfl

theorem changes_openFile (flags : UInt32) (env : Env) :
    Changes s (s.openFile p flags env).2 (.openFile p flags)
      (replied .opened (s.openFile p flags env)).1 := by
  unfold Fs.openFile
  dsimp only
  split
  · exact .keeps rfl rfl (.refl s)
  · split
    · have hk := keeps_on s (s.fs.setAttributes p (SetAttr.ofSize 0) env)
      generalize s.on _ = r at hk ⊢
      obtain ⟨e | a, s'⟩ := r
      · exact .keeps rfl rfl hk
      · exact changes_opened rfl rfl hk
    · exact changes_opened rfl rfl (.refl s)

theorem changes_create (parent : Path) (name : OsString) (mode flags : UInt32) (env : Env) :
    Changes s (s.create parent name mode flags env).2 (.create parent name mode flags)
      (replied (fun made => .created made.1 made.2) (s.create parent name mode flags env)).1 := by
  unfold Fs.create Fs.withType
  split
  · exact .keeps rfl rfl (.refl s)
  · split
    · exact .keeps rfl rfl (.refl s)
    · have hk : Keeps s (s.createFile (parent.child name) 0 env).2 := keeps_on s _
      generalize s.createFile _ 0 env = r at hk ⊢
      obtain ⟨e | a, s'⟩ := r
      · exact .keeps rfl rfl hk
      · obtain ⟨hcur, htable⟩ := hk
        refine .opened (parent.child name) rfl rfl ?_ ?_ ?_
        · rw [← hcur]; rfl
        · rw [← hcur]; rfl
        · rw [← hcur, ← htable]; rfl

/-- A handle that nobody has is closed already. -/
theorem changes_release (path : Option Path) (fh : UInt64) (flushes : Bool) (env : Env) :
    Changes s (s.release path fh flushes env).2 (.release path fh flushes)
      (replied (fun _ => .done) (s.release path fh flushes env)).1 := by
  refine .closed fh rfl (handle_replied _ fun _ => rfl) ?_ ?_
  · unfold Fs.release Fs.atPath
    split
    · split <;> rfl
    · rfl
  · unfold Fs.release Fs.atPath
    split
    · split <;> rfl
    · rename_i e hpath
      unfold Fs.filePath at hpath
      split at hpath
      · cases hpath
      · split at hpath
        · cases hpath
        · rename_i hnone
          exact (Function.update_eq_self_iff.mpr hnone.symm).symm

theorem run_changes (s : Fs L) (c : Call) (parts : Parts) :
    Changes s (c.run s parts).2 c (c.run s parts).1 := by
  cases c with
  | openFile p flags => exact changes_openFile flags parts.rest
  | opendir p => exact changes_opened rfl rfl (.refl s)
  | create parent name mode flags => exact changes_create parent name mode flags parts.rest
  | release path fh flushes => exact changes_release path fh flushes parts.rest
  | releasedir p fh => exact .closed fh rfl rfl rfl rfl
  | forget p => exact .keeps rfl rfl (keeps_forget s p)
  | fsyncdir p fh => exact .keeps rfl rfl (keeps_forget s p)
  | batchForget paths => exact .keeps rfl rfl (keeps_batchForget paths s)
  | symlink parent name linkPath =>
    refine changes_none rfl (fun _ => rfl) ?_
    cases linkPath with
    | text target => exact keeps_on s _
    | raw bytes => exact .refl s
  | mknod parent name mode =>
    exact changes_none rfl (fun _ => rfl) (keeps_withType (keeps_on s _))
  | fsync path fh =>
    exact changes_none rfl (fun _ => rfl) (keeps_andThen (keeps_on s _) fun _ s' hk =>
      hk.trans (keeps_atPath fun p => keeps_forget s' p))
  | copyFileRange a h offsetIn b k offsetOut length =>
    exact changes_none rfl (fun _ => rfl) (keeps_atPath fun _ => keeps_atPath fun _ =>
      keeps_on s _)
  | fallocate path fh offset mode =>
    exact changes_none rfl (fun _ => rfl) (keeps_atPath fun _ => keeps_withType
      (keeps_andThen (keeps_on s _) fun _ _ hk => hk))
  | getattr | setattr | read | write | flush =>
    exact changes_none rfl (fun _ => rfl) (keeps_atPath fun _ => keeps_on s _)
  | _ => exact changes_none rfl (fun _ => rfl) (keeps_on s _)

/-- What the table has for the handle, with so many handles given out after it. -/
structure Stands (s : Fs L) (fh : UInt64) (v : Option Path) (later : ℕ) : Prop where
  path : s.fileHandlers fh = v
  next : s.currentFh = fh + .ofNat (later + 1)

theorem wraps {later : ℕ} (h : later + 1 < 2 ^ 64) (fh : UInt64) :
    fh + .ofNat (later + 1) ≠ fh := by
  intro heq
  have hzero : UInt64.ofNat (later + 1) = 0 := by
    simpa using heq
  have hnat := congrArg UInt64.toNat hzero
  rw [UInt64.toNat_ofNat'] at hnat
  have hz : (0 : UInt64).toNat = 0 := rfl
  omega

def left (c : Call) (fh : UInt64) (v : Option Path) : Option Path :=
  if closes c = some fh then none else v

theorem Stands.step {v : Option Path} {later : ℕ} (h : Stands s fh v later)
    (parts : Parts) (hfew : later + openings [(c.run s parts).1] < 2 ^ 64) :
    handle (c.run s parts).1 ≠ some fh ∧
      Stands (c.run s parts).2 fh (left c fh v) (later + openings [(c.run s parts).1]) := by
  have hchanges := run_changes s c parts
  generalize c.run s parts = done at hchanges hfew ⊢
  obtain ⟨r, s'⟩ := done
  cases hchanges with
  | keeps hc hr hk =>
    have hnone : openings [r] = 0 := by simp [openings, hr]
    rw [hr, hnone]
    refine ⟨nofun, ?_, hk.1.trans h.next⟩
    rw [left, hc, if_neg nofun]
    exact (congrFun hk.2 fh).trans h.path
  | opened q hc ho hr hnext htable =>
    have hone : openings [r] = 1 := by simp [openings, hr]
    rw [hone] at hfew
    have hne : s.currentFh ≠ fh := by
      rw [h.next]
      exact wraps hfew fh
    rw [hr, hone]
    refine ⟨fun heq => hne (Option.some.inj heq), ?_, ?_⟩
    · rw [left, hc, if_neg nofun]
      exact (congrFun htable fh).trans ((Function.update_of_ne hne.symm _ _).trans h.path)
    · refine hnext.trans ?_
      rw [h.next, UInt64.ofNat_add (later + 1) 1]
      exact UInt64.add_assoc _ _ _
  | closed fh' hc hr hnext htable =>
    have hnone : openings [r] = 0 := by simp [openings, hr]
    rw [hr, hnone]
    refine ⟨nofun, ?_, hnext.trans h.next⟩
    have hget := congrFun htable fh
    by_cases heq : fh' = fh
    · rw [left, hc, heq, if_pos rfl]
      exact hget.trans (by rw [heq, Function.update_self])
    · rw [left, hc, if_neg fun hsome => heq (Option.some.inj hsome)]
      exact hget.trans ((Function.update_of_ne (Ne.symm heq) _ _).trans h.path)

theorem openings_cons (r : Except Failure Reply) (results : List (Except Failure Reply)) :
    openings (r :: results) = openings [r] + openings results := by
  unfold openings
  rw [← List.countP_append, List.singleton_append]

theorem Stands.run (calls : List (Call × Parts)) : ∀ (s : Fs L) (v : Option Path) (later : ℕ),
    Stands s fh v later → later + openings (runCalls s calls).1 < 2 ^ 64 →
      (∀ r ∈ (runCalls s calls).1, handle r ≠ some fh) ∧
        Stands (runCalls s calls).2 fh (calls.foldl (fun v call => left call.1 fh v) v)
          (later + openings (runCalls s calls).1) := by
  induction calls with
  | nil => exact fun s v later h _ => ⟨nofun, h⟩
  | cons head calls ih =>
    obtain ⟨c, parts⟩ := head
    intro s v later h hfew
    rw [runCalls, openings_cons, ← Nat.add_assoc] at hfew ⊢
    obtain ⟨hr, hstep⟩ := h.step parts (Nat.lt_of_le_of_lt (Nat.le_add_right _ _) hfew)
    obtain ⟨hrest, hrun⟩ := ih _ _ _ hstep hfew
    exact ⟨List.forall_mem_cons.mpr ⟨hr, hrest⟩, hrun⟩

/-! What a handle does for a call -/

/-- A path in place of a handle that has it. -/
theorem filePath_named (h : s.fileHandlers fh = some p) (path : Option Path) (fh' : UInt64)
    (missing : Failure) :
    s.filePath (if path = none ∧ fh' = fh then some p else path) fh' missing =
      s.filePath path fh' missing := by
  split
  · rename_i heq
    rw [heq.1, heq.2, Fs.filePath, Fs.filePath, h]
  · rfl

theorem filePath_alone (h : s.fileHandlers fh = some p) (fh' : UInt64) (missing : Failure) :
    s.filePath (if fh' = fh then some p else none) fh' missing = s.filePath none fh' missing := by
  rw [← filePath_named h none]
  simp only [true_and]

theorem attrPath_alone (h : s.fileHandlers fh = some p) (fh' : UInt64) :
    s.attrPath (if fh' = fh then some p else none) (some fh') = s.attrPath none (some fh') := by
  refine Eq.trans ?_ (filePath_alone h fh' (.invalidFileHandle fh'))
  split <;> rfl

theorem run_named (h : s.fileHandlers fh = some p) (c : Call) (parts : Parts) :
    (named fh p c).run s parts = c.run s parts := by
  cases c with
  | getattr path h' | setattr path h' new =>
    rcases path with _ | path <;> rcases h' with _ | h' <;> try rfl
    simp only [named, Call.run, Fs.getattr, Fs.setattr, attrPath_alone h]
  | read path h' offset size | write path h' offset data | flush path h'
  | release path h' flushes | fallocate path h' offset mode =>
    rcases path with _ | path <;> try rfl
    simp only [named, Call.run, Fs.read, Fs.write, Fs.flush, Fs.release, Fs.fallocate,
      filePath_alone h]
  | fsync path h' =>
    rcases path with _ | path <;> try rfl
    have hkeeps := (keeps_on s (s.fs.flushWriteBuffer parts.rest)).2
    simp only [named, Call.run, Fs.fsync, Fs.flushBuffer]
    generalize s.on (s.fs.flushWriteBuffer parts.rest) = r at hkeeps ⊢
    obtain ⟨e | u, s'⟩ := r
    · rfl
    · rw [← hkeeps] at h
      simp only [Fs.andThen, filePath_alone h]
  | copyFileRange a h' offsetIn b k offsetOut length =>
    simp only [named, Call.run, Fs.copyFileRange, filePath_named h]
    rfl
  | _ => rfl

theorem filePath_none (h : s.fileHandlers fh = none) (missing : Failure) :
    s.filePath none fh missing = .error missing := by
  rw [Fs.filePath, h]

/-- An error, and a file system as it was; `fsync` has written the buffer out by then. -/
structure Refused (fh : UInt64) (s : Fs L) (c : Call) (parts : Parts) : Prop where
  error : ∃ e, (c.run s parts).1 = .error e
  left : (c.run s parts).2 =
    if c = .fsync none fh then (s.flushBuffer parts.rest).2 else s

theorem refused_of_error {α : Type} {reply : α → Reply} {e : Failure} {parts : Parts}
    {path : Except Failure Path} {next : Path → UnixFrontEnd.Result L α}
    (hrun : c.run s parts = replied reply (s.atPath path next)) (hpath : path = .error e)
    (hc : c ≠ .fsync none fh) : Refused fh s c parts := by
  rw [hpath] at hrun
  exact ⟨⟨e, by rw [hrun]; rfl⟩, by rw [hrun, if_neg hc]; rfl⟩

theorem run_refused (h : s.fileHandlers fh = none) {c : Call} (hc : Through fh c)
    (parts : Parts) : Refused fh s c parts := by
  cases c with
  | getattr path h' | setattr path h' new =>
    rcases path with _ | path <;> rcases h' with _ | h' <;> try exact hc.elim
    obtain rfl : h' = fh := hc
    exact refused_of_error rfl (filePath_none h _) nofun
  | read path h' offset size | write path h' offset data | flush path h'
  | release path h' flushes | fallocate path h' offset mode =>
    rcases path with _ | path <;> try exact hc.elim
    obtain rfl : h' = fh := hc
    exact refused_of_error rfl (filePath_none h _) nofun
  | fsync path h' =>
    rcases path with _ | path <;> try exact hc.elim
    obtain rfl : h' = fh := hc
    have hkeeps := (keeps_on s (s.fs.flushWriteBuffer parts.rest)).2
    have hrun : Call.run s parts (.fsync none h') = replied (fun _ => Reply.done)
        (Fs.andThen (s.flushBuffer parts.rest) fun _ s' =>
          s'.atPath (s'.filePath none h' (.invalidFileHandle h')) fun p =>
            (.ok (), s'.forget p)) := rfl
    rw [← Fs.flushBuffer] at hkeeps
    obtain ⟨r, hr⟩ : ∃ r, r = s.flushBuffer parts.rest := ⟨_, rfl⟩
    rw [← hr] at hrun hkeeps
    refine ⟨?_, ?_⟩
    · rw [hrun]
      obtain ⟨e | u, s'⟩ := r
      · exact ⟨e, rfl⟩
      · rw [← hkeeps] at h
        exact ⟨.invalidFileHandle h', by simp only [Fs.andThen, filePath_none h]; rfl⟩
    · rw [if_pos rfl, ← hr, hrun]
      obtain ⟨e | u, s'⟩ := r
      · rfl
      · rw [← hkeeps] at h
        simp only [Fs.andThen, filePath_none h]
        rfl
  | copyFileRange a h' offsetIn b k offsetOut length =>
    rcases hc with ⟨rfl, rfl⟩ | ⟨rfl, rfl⟩
    · exact refused_of_error rfl (filePath_none h _) nofun
    · cases ha : s.filePath a h' (.invalidFileHandle h') with
      | error e => exact refused_of_error rfl ha nofun
      | ok q =>
        refine ⟨⟨.invalidFileHandle k, ?_⟩, ?_⟩
        · simp only [Call.run, Fs.copyFileRange, ha, filePath_none h]
          rfl
        · simp only [Call.run, Fs.copyFileRange, ha, filePath_none h]
          rfl
  | _ => exact hc.elim

theorem foldl_left_kept {v : Option Path} {calls : List (Call × Parts)}
    (h : ∀ call ∈ calls, closes call.1 ≠ some fh) :
    calls.foldl (fun v call => left call.1 fh v) v = v := by
  induction calls with
  | nil => rfl
  | cons call calls ih =>
    rw [List.foldl_cons, left, if_neg (h call List.mem_cons_self)]
    exact ih fun call hcall => h call (List.mem_cons_of_mem _ hcall)

theorem foldl_left_none (calls : List (Call × Parts)) :
    calls.foldl (fun v call => left call.1 fh v) none = none := by
  induction calls with
  | nil => rfl
  | cons call calls ih =>
    rw [List.foldl_cons, left, ite_self]
    exact ih

theorem foldl_left_closed {v : Option Path} {calls : List (Call × Parts)}
    (h : ∃ call ∈ calls, closes call.1 = some fh) :
    calls.foldl (fun v call => left call.1 fh v) v = none := by
  induction calls generalizing v with
  | nil => obtain ⟨call, hcall, -⟩ := h; cases hcall
  | cons call calls ih =>
    rw [List.foldl_cons]
    by_cases hc : closes call.1 = some fh
    · rw [left, if_pos hc, foldl_left_none]
    · obtain ⟨call', hmem, hclose⟩ := h
      rcases List.mem_cons.mp hmem with rfl | hmem
      · exact (hc hclose).elim
      · exact ih ⟨call', hmem, hclose⟩

/-- Until it is closed, a handle stands for the path it was opened with: a call that has the
handle alone does what it does with the path. From then on such a call is refused. In between
nobody else is given the handle. -/
theorem handle_stands_for_path (s : Fs L) (c : Call) (parts : Parts) (p : Path) (fh : UInt64)
    (hopens : opens c = some p) (hfh : handle (c.run s parts).1 = some fh)
    (after : List (Call × Parts))
    (hfew : openings (runCalls (c.run s parts).2 after).1 < 2 ^ 64) :
    (∀ r ∈ (runCalls (c.run s parts).2 after).1, handle r ≠ some fh) ∧
      ((∀ call ∈ after, closes call.1 ≠ some fh) → ∀ d parts',
        (named fh p d).run (runCalls (c.run s parts).2 after).2 parts' =
          d.run (runCalls (c.run s parts).2 after).2 parts') ∧
      ((∃ call ∈ after, closes call.1 = some fh) → ∀ d, Through fh d → ∀ parts',
        Refused fh (runCalls (c.run s parts).2 after).2 d parts') := by
  have hstands : Stands (c.run s parts).2 fh (some p) 0 := by
    cases run_changes s c parts with
    | keeps hc hr hk => rw [hfh] at hr; cases hr
    | closed fh' hc hr hnext htable => rw [hfh] at hr; cases hr
    | opened q hc ho hr hnext htable =>
      obtain rfl : fh = s.currentFh := Option.some.inj (hfh.symm.trans hr)
      obtain rfl : p = q := Option.some.inj (hopens.symm.trans ho)
      exact ⟨(congrFun htable _).trans (Function.update_self _ _ _), hnext⟩
  obtain ⟨hfresh, hrun⟩ := hstands.run after _ _ _ (by rw [Nat.zero_add]; exact hfew)
  refine ⟨hfresh, fun hkept => ?_, fun hclosed d hd parts' => ?_⟩
  · exact run_named (hrun.path.trans (foldl_left_kept hkept))
  · exact run_refused (hrun.path.trans (foldl_left_closed hclosed)) hd parts'

/-- The file moves away under the open handle, which stays with the name. -/
theorem handle_of_renamed_file :
    let L : PageLimits := ⟨4, 4, by decide⟩
    let path : String → Path := fun n => [.rootDir, .normal (.text n)]
    let parts : Parts := ⟨fun _ => .steady 0 none, .steady 0 none, .steady 0 none⟩
    let s : Fs L := ⟨.new (.withFiles [path "f"]) 4 0 none, 1, fun _ => none⟩
    let after := [(Call.rename [.rootDir] (.text "f") [.rootDir] (.text "g"), parts)]
    let last := (runCalls ((Call.openFile (path "f") 2).run s parts).2 after).2
    last.fs.remote.nodes (path "f") = none ∧
      ∀ d parts', (named 1 (path "f") d).run last parts' = d.run last parts' := by
  intro L path parts s after last
  refine ⟨by decide, (handle_stands_for_path s (.openFile (path "f") 2) parts (path "f") 1 rfl
    (by decide) after (by decide)).2.1 ?_⟩
  intro call hcall
  rw [List.mem_singleton.mp hcall]
  exact nofun

end UnixHandles
