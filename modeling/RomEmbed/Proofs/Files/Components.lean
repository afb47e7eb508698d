import Mathlib.Data.List.DropRight
import Mathlib.Tactic.Common
import RomEmbed.Files.Path

/-!
The two sides of the last slash of a path. What is put at the end of a path changes only the
last name in it, as long as it has no slash of its own. A name by itself is a path of one
step.
-/

namespace RomEmbed.Files

variable {raw s : Bytes} {n : Name}

/-- A path up to its last slash. -/
def directory (raw : Bytes) : Bytes := raw.rdropWhile (· ≠ slashOctet)

/-- What stands behind the last slash. -/
def lastName (raw : Bytes) : Name := raw.rtakeWhile (· ≠ slashOctet)

lemma directory_append_lastName (raw : Bytes) : directory raw ++ lastName raw = raw :=
  List.rdropWhile_append_rtakeWhile

lemma slash_not_mem_lastName (raw : Bytes) : slashOctet ∉ lastName raw :=
  fun h => by simpa using List.mem_rtakeWhile_imp h

/-- A directory ends in a slash. -/
lemma directory_cases (raw : Bytes) :
    directory raw = [] ∨ ∃ outer, directory raw = outer ++ [slashOctet] := by
  by_cases h : directory raw = []
  · exact Or.inl h
  · have hnot : ¬decide ((directory raw).getLast h ≠ slashOctet) = true :=
      List.rdropWhile_last_not _ raw h
    have hlast : (directory raw).getLast h = slashOctet := by simpa using hnot
    exact Or.inr ⟨(directory raw).dropLast, by
      rw [← hlast, List.dropLast_append_getLast h]⟩

lemma all_ne_slash (h : slashOctet ∉ s) : ∀ b ∈ s.reverse, decide (b ≠ slashOctet) = true :=
  fun _ hb => decide_eq_true fun he => h (he ▸ List.mem_reverse.mp hb)

lemma directory_append (raw : Bytes) (h : slashOctet ∉ s) :
    directory (raw ++ s) = directory raw := by
  unfold directory List.rdropWhile
  rw [List.reverse_append, List.dropWhile_append_of_pos (all_ne_slash h)]

lemma lastName_append (raw : Bytes) (h : slashOctet ∉ s) :
    lastName (raw ++ s) = lastName raw ++ s := by
  unfold lastName List.rtakeWhile
  rw [List.reverse_append, List.takeWhile_append_of_pos (all_ne_slash h), List.reverse_append,
    List.reverse_reverse]

/-! ### Steps -/

/-- What is looked up as a name: it is neither empty nor a dot or two. -/
def IsName (n : Name) : Prop := n ∉ [[], [dotOctet], [dotOctet, dotOctet]]

lemma isName_of_length (h : 3 ≤ n.length) : IsName n := by
  intro hmem
  simp only [List.mem_cons, List.not_mem_nil, or_false] at hmem
  rcases hmem with rfl | rfl | rfl <;> simp at h

lemma IsName.ne_nil (h : IsName n) : n ≠ [] := fun he => h (by simp [he])

lemma IsName.ofName (h : IsName n) : Part.ofName n = .name n := by
  have hdot : n ≠ [dotOctet] := fun he => h (by simp [he])
  have hdots : n ≠ [dotOctet, dotOctet] := fun he => h (by simp [he])
  simp [Part.ofName, hdot, hdots]

lemma names_of_name (hslash : slashOctet ∉ n) (hne : n ≠ []) : names n = [n] := by
  have hall : ∀ b ∈ n, (b == slashOctet) = false := by
    intro b hb
    have : b ≠ slashOctet := fun he => hslash (he ▸ hb)
    simpa using this
  unfold names List.splitOn
  rw [List.splitOnP_eq_singleton hall]
  simp [hne]

lemma names_append_slash (outer : Bytes) (s : Bytes) :
    names (outer ++ [slashOctet] ++ s) = names outer ++ names s := by
  unfold names List.splitOn
  rw [List.append_assoc, List.singleton_append, List.splitOnP_append_cons _ _ (by simp),
    List.filter_append]

lemma exists_names_eq (h : lastName raw ≠ []) : ∃ outer, names raw = outer ++ [lastName raw] := by
  have hlast := names_of_name (slash_not_mem_lastName raw) h
  have hraw := directory_append_lastName raw
  rcases directory_cases raw with hd | ⟨outer, hd⟩
  · rw [hd, List.nil_append] at hraw
    rw [hraw] at hlast
    exact ⟨[], by rw [hlast, hraw]; rfl⟩
  · rw [hd] at hraw
    exact ⟨names outer, by rw [← hlast, ← names_append_slash, hraw]⟩

lemma getLast?_ne_slash (h : lastName raw ≠ []) : raw.getLast? ≠ some slashOctet := by
  intro hlast
  rw [← directory_append_lastName raw, List.getLast?_append_of_ne_nil _ h] at hlast
  exact slash_not_mem_lastName raw (List.mem_of_getLast? hlast)

/-- **A path ends with its last name**, if that is one. -/
lemma parts_getLast? (h : IsName (lastName raw)) :
    (Path.parse raw).parts.getLast? = some (.name (lastName raw)) := by
  obtain ⟨outer, hnames⟩ := exists_names_eq h.ne_nil
  simp only [Path.parse, if_neg (getLast?_ne_slash h.ne_nil), hnames, List.map_append,
    List.map_cons, List.map_nil, h.ofName, List.append_nil, List.getLast?_concat]

lemma parse_of_name (hslash : slashOctet ∉ n) (h : IsName n) :
    Path.parse n = ⟨false, [.name n]⟩ := by
  have hfirst : n.head? ≠ some slashOctet := fun he => hslash (List.mem_of_head? he)
  have hlast : n.getLast? ≠ some slashOctet := fun he => hslash (List.mem_of_getLast? he)
  simp [Path.parse, names_of_name hslash h.ne_nil, h.ofName, hfirst, hlast]

end RomEmbed.Files
