import RemoteFs.ServerAttributeRequests

/-! # Times in requests and replies -/
namespace ServerTimes

open CallRows
open ClientAttributes
open OsPaths
open PosixTree
open ServerAccess
open ServerAttributeCalls
open ServerAttributeRequests
open ServerStorage
open SystemTimes
open Timestamps

theorem panics_of_panic {fs : FileSystem} {user : AuthenticatedUser} {path : Path} {new : SetAttr}
    {now : Timestamp} {faults : Faults} {t : Tree} {l : Location} {i : Inode}
    (h : Found fs path t l i)
    (hpanic : (setAttributes fs user path new now faults t).1 = .error .panic) :
    ¬(Converts new.atime ∧ Converts new.mtime) := by
  obtain ⟨before, part, after, -, -, hstop⟩ := stopped_of_error h hpanic
  have hgoes : Goes (Part.run fs user path new now faults
      (Function.update t l (some (stage new now i before))) part) _ _ _ :=
    part_goes (h.amend (stage_look i before)) part
  by_contra hconverts
  have hnot : ¬Panics new part := fun hp => hp.2 hconverts
  by_cases hr : Refuses fs user path new faults
      (Function.update t l (some (stage new now i before))) (stage new now i before) part
  · obtain ⟨e, he⟩ := hgoes.refused hr
    cases he.symm.trans hstop
  · cases (hgoes.done hr hnot).symm.trans hstop

def request (t : Timestamp) : SetAttr := { SetAttr.none with atime := some t, mtime := some t }

/-- What is asked of a time that fits: it is converted there and back, no request for it panics,
and no reply about an object with this time panics in the client or shifts the time. -/
structure Carried (t : Timestamp) : Prop where
  converted : ∃ s, toSystemTime t = some s ∧ ofSystemTime s = t
  requested : ∀ fs user path now faults tree l i, Found fs path tree l i →
    (setAttributes fs user path (request t) now faults tree).1 ≠ .error .panic
  replied : ∀ i : Inode, i.atime = t → i.mtime = t → i.ctime = t →
    ∀ r ∈ [(fileAttr i).atime, (fileAttr i).mtime, (fileAttr i).ctime],
      r = t ∧ toSystemTime r ≠ none

/-- Times are carried exactly from 1970 on, and so are clock times. -/
theorem carried_iff (t : Timestamp) (h : Fits t) (s : SystemTime) :
    (Carried t ↔ 0 ≤ t.sec) ∧ (toSystemTime (ofSystemTime s) = some s ↔ 0 ≤ s.secs) := by
  refine ⟨⟨fun hcarried => (roundTrip_iff h).mp hcarried.converted, fun hsec => ?_⟩,
    systemTime_roundTrip_iff⟩
  have htime := toSystemTime_of_nonneg h hsec
  have hreported : reported t = t := if_neg (Int.not_lt.mpr hsec)
  refine ⟨(roundTrip_iff h).mpr hsec, ?_, ?_⟩
  · intro fs user path now faults tree l i hfound hpanic
    refine panics_of_panic hfound hpanic ⟨?_, ?_⟩
    · rintro r ⟨⟩
      rw [htime]
      exact Option.some_ne_none _
    · rintro r ⟨⟩
      rw [htime]
      exact Option.some_ne_none _
  · intro i hatime hmtime hctime r hr
    have hr : r = t := by
      simpa [fileAttr, hatime, hmtime, hctime, hreported] using hr
    rw [hr, htime]
    exact ⟨rfl, Option.some_ne_none _⟩

theorem carried_iff_1970 : (Carried ⟨0, 5⟩ ↔ (0 : ℤ) ≤ 0) ∧
    (toSystemTime (ofSystemTime .epoch) = some .epoch ↔ (0 : ℤ) ≤ 0) :=
  carried_iff ⟨0, 5⟩ ⟨by decide, by decide, by decide⟩ .epoch

/-- The last second of 1969: the conversion panics and with it a request of the file's owner; a
clock time of that second comes back as 1970. -/
theorem last_second_of_1969 :
    ¬Carried ⟨-1, 0⟩ ∧
    (setAttributes srv ⟨1000, 1000⟩ ownPath (request ⟨-1, 0⟩) ⟨9, 0⟩ noFaults exported).1 =
      .error .panic ∧
    toSystemTime (ofSystemTime ⟨-1, 0, by decide, by decide, by decide⟩) = some .epoch := by
  have hpanics : toSystemTime ⟨-1, 0⟩ = none := by decide
  refine ⟨?_, by decide, by decide⟩
  intro hcarried
  obtain ⟨s, hs, -⟩ := hcarried.converted
  cases hpanics.symm.trans hs

end ServerTimes
