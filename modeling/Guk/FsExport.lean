import Guk.CString
import Guk.Path

/-!
# The file system backend: which files a guest can name

`check_exported_eqok` compares the path of a request with the export path of the
mount byte by byte. Every handler that takes a path calls it before the path
goes to the host's file system. The comparison knows nothing of `..`.
-/
namespace Guk.FsExport

open Guk.Path List
open CString (text)

abbrev Text := List UInt8

def slash : UInt8 := 47

def dot : UInt8 := 46

def checkExportedEqok : (exportPath path : Text) → (eqok : Bool) → Bool
  | e :: es, p :: ps, eqok => if e ≠ p then false else checkExportedEqok es ps eqok
  -- the path ends first: it must be identical
  | es, [], eqok => es.isEmpty && eqok
  | [], p :: _, _ => p = slash

def checkExported (exportPath path : Text) : Bool := checkExportedEqok exportPath path false

inductive Request
  | fileOpen (fileName : Text) (flags : Int)
  | stat (fileName : Text)
  | fstat (fd : Int)
  | remove (fileName : Text)
  | rename (oldFileName newFileName : Text)
  | create (fileName : Text) (directory : Bool) (mode : Int)
  | list (fileName : Text) (offset : Nat)
  | fsSpace (fileName : Text)
deriving DecidableEq

inductive HostCall
  | open (fileName : Text) (flags : Int)
  | stat (fileName : Text)
  | fstat (fd : Int)
  | remove (fileName : Text)
  | rename (oldFileName newFileName : Text)
  | mkdir (fileName : Text) (mode : Int)
  | openExclusive (fileName : Text) (mode : Int)
  | opendir (fileName : Text)
  | statfs (fileName : Text)
deriving DecidableEq

def HostCall.fileNames : HostCall → List Text
  | .open n _ | .stat n | .remove n | .mkdir n _ | .openExclusive n _ | .opendir n | .statfs n =>
      [n]
  | .rename o n => [o, n]
  | .fstat _ => []

section Handlers

variable (exportPath : Text)

def dispatchFileOpen (fileName : Text) (flags : Int) : Option HostCall :=
  if checkExported exportPath fileName then some (.open fileName flags) else none

def dispatchStat : Request → Option HostCall
  | .fstat fd => some (.fstat fd)
  | .stat fileName => if checkExportedEqok exportPath fileName true then some (.stat fileName)
      else none
  | _ => none

def dispatchRemove (fileName : Text) : Option HostCall :=
  if checkExported exportPath fileName then some (.remove fileName) else none

def dispatchRename (oldFileName newFileName : Text) : Option HostCall :=
  if checkExported exportPath oldFileName && checkExported exportPath newFileName then
    some (.rename oldFileName newFileName)
  else none

def dispatchCreate (fileName : Text) (directory : Bool) (mode : Int) : Option HostCall :=
  if checkExported exportPath fileName then
    some (if directory then .mkdir fileName mode else .openExclusive fileName mode)
  else none

def dispatchList (fileName : Text) : Option HostCall :=
  if checkExportedEqok exportPath fileName true then some (.opendir fileName) else none

def dispatchFsSpace (fileName : Text) : Option HostCall :=
  if checkExported exportPath fileName then some (.statfs fileName) else none

def dispatch : Request → Option HostCall
  | .fileOpen fileName flags => dispatchFileOpen exportPath fileName flags
  | .stat fileName => dispatchStat exportPath (.stat fileName)
  | .fstat fd => dispatchStat exportPath (.fstat fd)
  | .remove fileName => dispatchRemove exportPath fileName
  | .rename oldFileName newFileName => dispatchRename exportPath oldFileName newFileName
  | .create fileName directory mode => dispatchCreate exportPath fileName directory mode
  | .list fileName _ => dispatchList exportPath fileName
  | .fsSpace fileName => dispatchFsSpace exportPath fileName

end Handlers

/-! ## What the check accepts -/

theorem checkExportedEqok_iff (e p : Text) (eqok : Bool) :
    checkExportedEqok e p eqok = true ↔
      (p = e ∧ eqok = true) ∨ ∃ r, p = e ++ slash :: r := by
  induction e generalizing p with
  | nil =>
    cases p with
    | nil | cons b p => simp [checkExportedEqok]
  | cons a e ih =>
    cases p with
    | nil => simp [checkExportedEqok]
    | cons b p =>
      simp only [checkExportedEqok]
      by_cases hab : a = b
      · subst hab
        simp [ih]
      · simp [hab, Ne.symm hab]

theorem checked_of_guarded {e n p : Text} {eqok : Bool} {c call : HostCall} (hn : c.fileNames = [n])
    (h : (if checkExportedEqok e n eqok then some c else none) = some call)
    (hp : p ∈ call.fileNames) : ∃ eqok, checkExportedEqok e p eqok = true := by
  simp only [Option.ite_none_right_eq_some, Option.some.injEq] at h
  obtain ⟨hc, rfl⟩ := h
  rw [hn, mem_singleton] at hp
  exact ⟨eqok, hp ▸ hc⟩

theorem dispatch_checked {e : Text} {req : Request} {call : HostCall}
    (h : dispatch e req = some call) {p : Text} (hp : p ∈ call.fileNames) :
    ∃ eqok, checkExportedEqok e p eqok = true := by
  cases req with
  | fileOpen n flags | stat n | remove n | list n offset | fsSpace n =>
      exact checked_of_guarded rfl h hp
  | fstat fd =>
    cases h
    cases hp
  | rename o n =>
    simp only [dispatch, dispatchRename, Option.ite_none_right_eq_some, Option.some.injEq,
      Bool.and_eq_true] at h
    obtain ⟨⟨ho, hn⟩, rfl⟩ := h
    simp only [HostCall.fileNames, mem_cons, not_mem_nil, or_false] at hp
    rcases hp with hp | hp
    · exact ⟨false, hp ▸ ho⟩
    · exact ⟨false, hp ▸ hn⟩
  | create n directory mode =>
    cases directory with
    | false | true => exact checked_of_guarded rfl h hp

/-! ## Confinement -/

def Confined (exportPath path : Text) : Prop :=
  (normalise slash dot exportPath).Below (normalise slash dot path)

instance (e p : Text) : Decidable (Confined e p) :=
  inferInstanceAs (Decidable (Normal.Below _ _))

def behind (exportPath path : Text) : Normal UInt8 :=
  walk dot (.start false) ((path.drop exportPath.length).splitOn slash)

def LeadsBack (exportPath path : Text) : Prop :=
  let tree := normalise slash dot exportPath
  let rest := behind exportPath path
  (exportPath = [] → path = []) ∧
    (tree.absolute = true ∨ rest.ups ≤ tree.names.length) ∧
    tree.names.drop (tree.names.length - rest.ups) <+: rest.names

instance (e p : Text) : Decidable (LeadsBack e p) :=
  inferInstanceAs (Decidable (_ ∧ _ ∧ _))

theorem behind_self (e : Text) : behind e e = .start false := by
  simp [behind, walk, follow]

theorem behind_append (e r : Text) :
    behind e (e ++ slash :: r) = walk dot (.start false) (r.splitOn slash) := by
  have hsplit : (slash :: r).splitOn slash = [] :: r.splitOn slash := by
    simpa using splitOn_append_cons_self [] r (a := slash)
  simp only [behind, drop_left, hsplit]
  rfl

theorem leadsBack_self (e : Text) : LeadsBack e e := by
  simp [LeadsBack, behind_self, Normal.start]

theorem confined_self (e : Text) : Confined e e := ⟨rfl, rfl, prefix_refl _⟩

theorem not_confined_nil (r : Text) : ¬ Confined [] (slash :: r) := by
  intro h
  have habs : (normalise slash dot (slash :: r)).absolute = false := h.1
  rw [normalise, walk_absolute] at habs
  simp [Normal.start] at habs

theorem confined_append_iff (e r : Text) (he : e ≠ []) :
    Confined e (e ++ slash :: r) ↔ LeadsBack e (e ++ slash :: r) := by
  rw [Confined, normalise_append e r he, Normal.below_join, LeadsBack, behind_append]
  simp [he]

theorem confined_iff_leadsBack {e p : Text} {eqok : Bool} (h : checkExportedEqok e p eqok = true) :
    Confined e p ↔ LeadsBack e p := by
  rcases (checkExportedEqok_iff e p eqok).mp h with heq | hr
  · rw [heq.1]
    exact iff_of_true (confined_self e) (leadsBack_self e)
  · obtain ⟨r, rfl⟩ := hr
    by_cases he : e = []
    · subst he
      exact iff_of_false (not_confined_nil r) (fun hl => by cases hl.1 rfl)
    · exact confined_append_iff e r he

/-- A path the check accepts, and every path a handler passes to the host after
it, is confined just when it leads back. -/
theorem exported_tree_confinement (e : Text) :
    (∀ p eqok, checkExportedEqok e p eqok = true → (Confined e p ↔ LeadsBack e p)) ∧
    (∀ req call, dispatch e req = some call →
      ((∀ p ∈ call.fileNames, Confined e p) ↔ ∀ p ∈ call.fileNames, LeadsBack e p)) := by
  constructor
  · intro p eqok h
    exact confined_iff_leadsBack h
  · intro req call h
    apply forall₂_congr
    intro p hp
    obtain ⟨eqok, hc⟩ := dispatch_checked h hp
    exact confined_iff_leadsBack hc

theorem exported_tree_confinement_inside :
    checkExported (text "/srv") (text "/srv/a/../b") = true ∧
      Confined (text "/srv") (text "/srv/a/../b") := by
  constructor
  · decide
  · exact ((exported_tree_confinement (text "/srv")).1 (text "/srv/a/../b") false (by decide)).mpr
      (by decide)

/-- With `/srv` exported, `/srv/../etc/shadow` passes the check and is opened. -/
theorem dispatchFileOpen_escapes :
    checkExported (text "/srv") (text "/srv/../etc/shadow") = true ∧
      dispatch (text "/srv") (.fileOpen (text "/srv/../etc/shadow") 0) =
        some (.open (text "/srv/../etc/shadow") 0) ∧
      normalise slash dot (text "/srv/../etc/shadow") = ⟨true, 0, [text "etc", text "shadow"]⟩ ∧
      ¬ Confined (text "/srv") (text "/srv/../etc/shadow") := by
  decide

end Guk.FsExport
