/-
  Files by name and content. Any name can be written unless the directory refuses it, and
  what it refuses, and why, is not for the command to say: the folder of a name may be missing,
  or the file may not be for writing. A write is done as a whole or not at all.
-/
namespace TextHoist.Command

/-- The files of a directory, and the names that cannot be written there. -/
structure Directory where
  files : List (String × List UInt8) := []
  /-- Why a name cannot be written, if it cannot. -/
  refusal? : String → Option String := fun _ => none

/-- The reason why a name leads to no file. -/
def notFound : String := "No such file or directory (os error 2)"

namespace Directory

/-- The content of a file, if there is one of that name. -/
def read? (d : Directory) (name : String) : Option (List UInt8) := d.files.lookup name

/-- Writes a whole file, a new one or over an old one, or says why not. -/
def write (d : Directory) (name : String) (content : List UInt8) : Except String Directory :=
  match d.refusal? name with
  | some reason => .error reason
  | none => .ok { d with files := (name, content) :: d.files.filter (·.1 != name) }

/-- A directory with no folders in it, so that a name which leads into one is refused. -/
def flat (files : List (String × List UInt8)) : Directory :=
  ⟨files, fun name => if name.toList.contains '/' then some notFound else none⟩

variable {d d' : Directory} {name other : String} {content : List UInt8}

theorem write_eq_error_iff {reason : String} :
    d.write name content = .error reason ↔ d.refusal? name = some reason := by
  unfold write
  cases d.refusal? name with
  | none => simp
  | some r => simp

theorem read?_write (h : d.write name content = .ok d') : d'.read? name = some content := by
  unfold write at h
  split at h
  · cases h
  · cases h; simp [read?]

theorem read?_write_of_ne (h : d.write name content = .ok d') (hne : other ≠ name) :
    d'.read? other = d.read? other := by
  unfold write at h
  split at h
  · cases h
  · cases h
    simp only [read?, List.lookup_cons, beq_eq_false_iff_ne.mpr hne]
    induction d.files with
    | nil => rfl
    | cons f fs ih =>
      obtain ⟨n, bs⟩ := f
      by_cases hn : n = name
      · subst hn
        simp [List.lookup_cons, ih, beq_eq_false_iff_ne.mpr hne]
      · by_cases ho : other = n
        · subst ho; simp [hn]
        · simp [hn, List.lookup_cons, ih, beq_eq_false_iff_ne.mpr ho]

end Directory

end TextHoist.Command
