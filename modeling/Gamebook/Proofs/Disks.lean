import Gamebook.Files.Disk
import Gamebook.Proofs.Holdings

/-!
A disk as a map from paths to contents. Where a path leads depends on the folders alone, so what
is written to a file moves no path; the file holds what was written to it in order, and all
other files hold what they did.
-/
namespace Gamebook

namespace Table

variable {κ α : Type} [DecidableEq κ]

theorem put_put (k : κ) (v v' : α) (entries : List (κ × α)) :
    put k v' (put k v entries) = put k v' entries := by
  induction entries with
  | nil => simp [put]
  | cons e entries ih =>
    obtain ⟨k', x⟩ := e
    by_cases hk : k' = k
    · simp [put, hk]
    · simp [put, hk, ih]

theorem insert_insert (t : Table κ α) (k : κ) (v v' : α) :
    (t.insert k v).insert k v' = t.insert k v' := by
  simp only [insert, put_put]

end Table

theorem toOption_bind (x : Except ε α) (f : α → Except ε β) :
    (x >>= f).toOption = x.toOption.bind fun a => (f a).toOption := by
  cases x <;> rfl

theorem toOption_foldlM {f g : β → α → Except ε β}
    (h : ∀ b a, (f b a).toOption = (g b a).toOption) (l : List α) (b : β) :
    (l.foldlM f b).toOption = (l.foldlM g b).toOption := by
  induction l generalizing b with
  | nil => rfl
  | cons a l ih => simp only [List.foldlM_cons, toOption_bind, h, ih]

theorem eq_ok_iff_toOption {x : Except ε α} {a : α} : x = .ok a ↔ x.toOption = some a := by
  cases x <;> simp [Except.toOption]

namespace Disk

/-- Disks with the same folders, and paths begin in the same one. -/
structure SameFolders (d d' : Disk) : Prop where
  folders : d'.folders = d.folders
  here : d'.here = d.here

namespace SameFolders

variable {d d' : Disk} (h : d.SameFolders d')

include h

theorem isFolder (route : List String) : d'.isFolder route = d.isFolder route := by
  rw [Disk.isFolder, Disk.isFolder, h.folders]

theorem enter (route : List String) (part : String) :
    (d'.enter route part).toOption = (d.enter route part).toOption := by
  simp only [Disk.enter, h.isFolder, apply_ite Except.toOption]
  -- The files decide only which of two errors it is.
  simp only [Except.toOption, ite_self]

theorem locate (path : String) : (d'.locate path).toOption = (d.locate path).toOption := by
  simp only [Disk.locate, h.here, apply_ite Except.toOption, toOption_bind,
    toOption_foldlM h.enter]

theorem target (path : String) : (d'.target path).toOption = (d.target path).toOption := by
  unfold Disk.target
  simp only [toOption_bind, h.locate, h.isFolder]

theorem target_eq_ok_iff {path : String} {route : List String} :
    d'.target path = .ok route ↔ d.target path = .ok route := by
  rw [eq_ok_iff_toOption, eq_ok_iff_toOption, h.target]

end SameFolders

/-- A path is read where writing to it would put a file. -/
theorem read_eq_ok_iff {d : Disk} {path : String} {bytes : List UInt8} :
    d.read path = .ok bytes ↔
      ∃ route, d.target path = .ok route ∧ d.files.get? route = some bytes := by
  unfold read target
  cases hplace : d.locate path with
  | error why => simp [bind, Except.bind]
  | ok place =>
    obtain ⟨folder, name⟩ := place
    cases name with
    | none => simp [bind, Except.bind]
    | some name =>
      simp only [bind, Except.bind]
      by_cases hfolder : d.isFolder (folder ++ [name]) = true
      · simp [hfolder]
      · by_cases hslash : (pathOf path).slash = true
        -- With a slash at its end the path is refused, whether the file is there or not.
        · cases d.files.get? (folder ++ [name]) <;> simp [hfolder, hslash]
        · cases hfile : d.files.get? (folder ++ [name]) <;>
            simp [hfolder, hslash, hfile, pure, Except.pure]

theorem append_put (d : Disk) (route : List String) (bytes more : List UInt8) :
    (d.put route bytes).append route more = d.put route (bytes ++ more) := by
  simp only [append, put, Table.update, Table.get?_insert, if_true, Option.getD_some,
    Table.insert_insert]

theorem sameFolders_put (d : Disk) (route : List String) (bytes : List UInt8) :
    d.SameFolders (d.put route bytes) :=
  ⟨rfl, rfl⟩

/-- The second disk is the first one with other bytes at a path. -/
structure Rewrites (d : Disk) (path : String) (bytes : List UInt8) (d' : Disk) : Prop where
  sameFolders : d.SameFolders d'
  files : ∃ route, d.target path = .ok route ∧
    ∀ other, d'.files.get? other = if other = route then some bytes else d.files.get? other
  same : ∀ other, d.target other = d.target path → d'.read other = .ok bytes
  others : ∀ other, d.target other ≠ d.target path →
    ∀ content, d'.read other = .ok content ↔ d.read other = .ok content

theorem rewrites_put {d : Disk} {path : String} {route : List String}
    (h : d.target path = .ok route) (bytes : List UInt8) :
    d.Rewrites path bytes (d.put route bytes) where
  sameFolders := d.sameFolders_put route bytes
  files := ⟨route, h, fun other => Table.get?_insert ..⟩
  same := by
    intro other hother
    rw [read_eq_ok_iff]
    refine ⟨route, (d.sameFolders_put route bytes).target_eq_ok_iff.2 (hother.trans h), ?_⟩
    simp [put]
  others := by
    intro other hother content
    rw [read_eq_ok_iff, read_eq_ok_iff]
    refine exists_congr fun place => ?_
    rw [(d.sameFolders_put route bytes).target_eq_ok_iff]
    refine and_congr_right fun hplace => ?_
    have hne : place ≠ route := by
      rintro rfl
      exact hother (hplace.trans h.symm)
    simp [put, hne]

end Disk
end Gamebook
