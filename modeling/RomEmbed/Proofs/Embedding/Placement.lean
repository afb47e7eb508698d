import Mathlib.Tactic.Common
import RomEmbed.Files.Listing
import RomEmbed.Proofs.Embedding.Fidelity
import RomEmbed.Proofs.Files.Components
import RomEmbed.Proofs.Output.PlainNames

/-!
Where the output goes. Its path is the name with the extension behind it and nothing else, so
the name alone says in which directory it is, and the last name in it is never a step up or
none at all. A plain name has no slash: its class goes to the working directory itself, if
the name is short enough for a directory to hold.
-/

namespace RomEmbed

open Files (Tree Place Location Name Entry Shown Standing Path IsName directory lastName
  slashOctet dotOctet)

variable {t : Tree} {path : Bytes} {name : Text} {rom : Rom} {n : Name}

/-! ### One more file -/

namespace Files.Tree

/-- The second tree is the first with a new regular file in the working directory. -/
structure Gains (t u : Tree) (n : Name) (data : Bytes) : Prop where
  cwd : u.cwd = t.cwd
  /-- One entry more, of a file that had none. -/
  entries : u.entries = t.entries ++ [.of (t.cwd ++ [n]) (.file t.contents.length)]
  new : u.get? (t.cwd ++ [n]) = some (.file t.contents.length)
  content : u.content t.contents.length = data
  others : ∀ place, place ≠ t.cwd ++ [n] → u.get? place = t.get? place
  contents : ∀ id < t.contents.length, u.content id = t.content id
  /-- What is listed below the working directory is what was, and the file. -/
  listing : u.listing.Perm ((n, .file data.length) :: t.listing)

/-- Whether an entry is listed. -/
def isBelow (t : Tree) (s : Standing) : Bool := within t.cwd s.place && s.place ≠ t.cwd

/-- What is listed of an entry. -/
def row (t : Tree) (s : Standing) : Bytes × Shown :=
  ([slashOctet].intercalate (s.place.drop t.cwd.length), t.shown s.entry)

lemma listing_perm (t : Tree) : t.listing.Perm ((t.entries.filter t.isBelow).map t.row) :=
  List.mergeSort_perm _ _

lemma row_addFile {place : Location} (hroom : t.Room place) (data : Bytes) {s : Standing}
    (hs : s ∈ t.entries) : (t.addFile place data).row s = t.row s := by
  have hshown : (t.addFile place data).shown s.entry = t.shown s.entry := by
    cases he : s.entry with
    | file id =>
      have hid : id ≠ t.contents.length := Nat.ne_of_lt (t.known s hs id he)
      rw [shown, content_addFile hroom, if_neg hid, shown]
    | dir => rfl
    | link id target => rfl
    | device d => rfl
  rw [row, hshown, cwd_addFile, row]

lemma isBelow_new (t : Tree) (n : Name) (e : Entry) : t.isBelow (.of (t.cwd ++ [n]) e) = true := by
  simp [isBelow, within, Standing.of]

lemma row_new (hroom : t.Room (t.cwd ++ [n])) (data : Bytes) :
    (t.addFile (t.cwd ++ [n]) data).row (.of (t.cwd ++ [n]) (.file t.contents.length)) =
      (n, .file data.length) := by
  have hpath : [slashOctet].intercalate ((t.cwd ++ [n]).drop t.cwd.length) = n := by
    simp [List.intercalate]
  rw [row, cwd_addFile, Standing.of, hpath, shown, content_addFile hroom, if_pos rfl]

lemma listing_addFile (hroom : t.Room (t.cwd ++ [n])) (data : Bytes) :
    (t.addFile (t.cwd ++ [n]) data).listing.Perm ((n, .file data.length) :: t.listing) := by
  set u := t.addFile (t.cwd ++ [n]) data with hu
  have hentries : u.entries = t.entries ++ [.of (t.cwd ++ [n]) (.file t.contents.length)] :=
    entries_addFile hroom data
  have hkept : (t.entries.filter t.isBelow).map u.row = (t.entries.filter t.isBelow).map t.row :=
    List.map_congr_left fun s hs => row_addFile hroom data (List.mem_of_mem_filter hs)
  have hrows : (u.entries.filter t.isBelow).map u.row =
      (t.entries.filter t.isBelow).map t.row ++ [(n, .file data.length)] := by
    rw [hentries, List.filter_append, List.filter_cons_of_pos (isBelow_new t n _),
      List.filter_nil, List.map_append, hkept, List.map_singleton, hu, row_new hroom]
  have hsorted : u.listing.Perm
      ((t.entries.filter t.isBelow).map t.row ++ [(n, .file data.length)]) := by
    have hbelow : u.isBelow = t.isBelow := by
      funext s
      rw [isBelow, hu, cwd_addFile, isBelow]
    rw [← hrows, ← hbelow]
    exact listing_perm u
  calc u.listing.Perm _ := hsorted
    _ |>.Perm ((n, .file data.length) :: _) := List.perm_append_singleton _ _
    _ |>.Perm ((n, .file data.length) :: t.listing) := (listing_perm t).symm.cons _

/-- There is room in the working directory for a name that is not taken. -/
lemma room_of_vacant (hv : t.get? (t.cwd ++ [n]) = none) : t.Room (t.cwd ++ [n]) :=
  ⟨hv, by rw [List.dropLast_concat, t.get?_cwd]⟩

lemma gains_addFile (hroom : t.Room (t.cwd ++ [n])) (data : Bytes) :
    t.Gains (t.addFile (t.cwd ++ [n]) data) n data where
  cwd := cwd_addFile ..
  entries := entries_addFile hroom data
  new := by rw [get?_addFile hroom, if_pos rfl]
  content := by rw [content_addFile hroom, if_pos rfl]
  others place hplace := by rw [get?_addFile hroom, if_neg hplace]
  contents id hid := by rw [content_addFile hroom, if_neg (Nat.ne_of_lt hid)]
  listing := listing_addFile hroom data

/-! ### Names in the working directory -/

lemma read_of_name (hslash : slashOctet ∉ n) (hnul : 0 ∉ n) (hn : IsName n) :
    Path.read n =
      if n.length ≥ Path.maxPath then .error (.os .nameTooLong) else .ok ⟨false, [.name n]⟩ := by
  simp [Path.read, Path.refuseNul, hnul, hn.ne_nil, parse_of_name hslash hn, bind, Except.bind]

lemma target_of_short (hslash : slashOctet ∉ n) (hnul : 0 ∉ n) (hn : IsName n)
    (hlen : n.length ≤ Path.maxName) (hv : t.get? (t.cwd ++ [n]) = none) :
    t.target n = .ok (.vacant (t.cwd ++ [n])) := by
  have hshort : ¬n.length ≥ Path.maxPath := by
    unfold Path.maxName at hlen
    unfold Path.maxPath
    omega
  refine target_eq_ok_iff.mpr ⟨⟨false, [.name n]⟩, ?_, .vacant ⟨hlen, by simp⟩ hv⟩
  rw [read_of_name hslash hnul hn, if_neg hshort]

/-- A name that is too long for a directory is refused as such, even where it is too long for a
path as well. -/
lemma target_of_long (hslash : slashOctet ∉ n) (hnul : 0 ∉ n) (hn : IsName n)
    (hlen : Path.maxName < n.length) : t.target n = .error (.os .nameTooLong) := by
  unfold target
  rw [read_of_name hslash hnul hn]
  split
  · rfl
  · have hwalk : t.lookup .create ⟨false, [.name n]⟩ = .error .nameTooLong := by
      simp [lookup, walk, maxLinks, walkWith, child?, hlen]
    simp [bind, Except.bind, hwalk, Except.mapError]

end Files.Tree

/-! ### Names of classes -/

namespace ClassName

lemma slash_not_mem_extension : slashOctet ∉ Utf8.encode extension := by decide

lemma file_eq (name : Text) : file name = Utf8.encode name ++ Utf8.encode extension :=
  Utf8.encode_append name extension

lemma file_injective : Function.Injective file :=
  fun _ _ h => List.append_cancel_right (Utf8.encode_injective h)

lemma directory_file (name : Text) : directory (file name) = directory (Utf8.encode name) := by
  rw [file_eq, Files.directory_append _ slash_not_mem_extension]

lemma isName_lastName_file (name : Text) : IsName (lastName (file name)) := by
  rw [file_eq, Files.lastName_append _ slash_not_mem_extension]
  exact Files.isName_of_length (by rw [List.length_append]; exact Nat.le_add_left _ _)

lemma length_file (name : Text) : (file name).length = (Utf8.encode name).length + 3 := by
  rw [file_eq, List.length_append]
  rfl

lemma not_mem_file {b : UInt8} (hb : b.toNat < 0x80) (hplain : isPlain name = true)
    (hinner : isInner (Char.ofNat b.toNat) = false) (hext : b ∉ Utf8.encode extension) :
    b ∉ file name := by
  rw [file_eq, List.mem_append, Utf8.mem_encode_iff hb]
  exact not_or.mpr ⟨not_mem_of_isPlain hplain hinner, hext⟩

lemma slash_not_mem_file (hplain : isPlain name = true) : slashOctet ∉ file name :=
  not_mem_file (by decide) hplain (by decide) slash_not_mem_extension

lemma nul_not_mem_file (hplain : isPlain name = true) : 0 ∉ file name :=
  not_mem_file (by decide) hplain (by decide) (by decide)

lemma isName_file (name : Text) : IsName (file name) :=
  Files.isName_of_length (by rw [length_file]; exact Nat.le_add_left _ _)

end ClassName

/-! ### Plain names -/

namespace Embedding

lemma embed_of_short (hplain : ClassName.isPlain name = true) (hload : Rom.load t path = .ok rom)
    (hv : t.get? (t.cwd ++ [ClassName.file name]) = none)
    (hlen : (Utf8.encode name).length ≤ 252) :
    embed t path name =
      (t.addFile (t.cwd ++ [ClassName.file name]) (ClassText.bytes name rom),
        afterWriting path name rom (.ok ())) := by
  have hfit : (ClassName.file name).length ≤ Path.maxName := by
    rw [ClassName.length_file]
    exact Nat.add_le_add_right hlen 3
  exact embed_of_target hload
    (Tree.target_of_short (ClassName.slash_not_mem_file hplain) (ClassName.nul_not_mem_file hplain)
      (ClassName.isName_file name) hfit hv)

lemma embed_of_long (hplain : ClassName.isPlain name = true) (hload : Rom.load t path = .ok rom)
    (hlen : 252 < (Utf8.encode name).length) :
    embed t path name = (t, afterWriting path name rom (.error (.os .nameTooLong))) := by
  have hfit : Path.maxName < (ClassName.file name).length := by
    rw [ClassName.length_file]
    exact Nat.add_lt_add_right hlen 3
  have htarget := Tree.target_of_long (t := t) (ClassName.slash_not_mem_file hplain)
    (ClassName.nul_not_mem_file hplain) (ClassName.isName_file name) hfit
  rw [embed_of_loaded hload, overwritten_eq, htarget]

/-- **The output goes where its name says.** Names are not changed on the way to a path: the
directory stays, and behind it is a name and no step up. A plain name is that of a file in the
working directory, which is made exactly if the name leaves room for the extension; if it
does not, the system refuses it and nothing is changed. -/
theorem output_placed :
    (∀ name, ClassName.file name = Utf8.encode name ++ Utf8.encode ".js".toList ∧
      directory (ClassName.file name) = directory (Utf8.encode name) ∧
      lastName (ClassName.file name) ∉ [[], [dotOctet], [dotOctet, dotOctet]] ∧
      (Path.parse (ClassName.file name)).parts.getLast? =
        some (.name (lastName (ClassName.file name)))) ∧
    Function.Injective ClassName.file ∧
    (∀ t path name rom, ClassName.isPlain name = true → Rom.load t path = .ok rom →
      t.get? (t.cwd ++ [ClassName.file name]) = none →
      ((∃ p, (embed t path name).2.result = .ok p) ↔ (Utf8.encode name).length ≤ 252) ∧
      ((Utf8.encode name).length ≤ 252 →
        t.Gains (embed t path name).1 (ClassName.file name) (ClassText.bytes name rom)) ∧
      (252 < (Utf8.encode name).length →
        (∃ e, (embed t path name).2.result = .error (.unwritable (ClassName.file name) e) ∧
          e.number? = some 36) ∧
        (embed t path name).1 = t)) := by
  refine ⟨fun name => ⟨ClassName.file_eq name, ClassName.directory_file name,
      ClassName.isName_lastName_file name,
      Files.parts_getLast? (ClassName.isName_lastName_file name)⟩,
    ClassName.file_injective, fun t path name rom hplain hload hv => ?_⟩
  rcases Nat.lt_or_ge 252 (Utf8.encode name).length with hlong | hshort
  · rw [embed_of_long hplain hload hlong]
    refine ⟨iff_of_false ?_ (Nat.not_le.mpr hlong),
      fun hshort => absurd hlong (Nat.not_lt.mpr hshort), fun _ => ⟨⟨_, rfl, rfl⟩, rfl⟩⟩
    rintro ⟨p, hp⟩
    cases hp
  · rw [embed_of_short hplain hload hv hshort]
    exact ⟨iff_of_true ⟨_, rfl⟩ hshort, fun _ => Tree.gains_addFile (Tree.room_of_vacant hv) _,
      fun hlong => absurd hlong (Nat.not_lt.mpr hshort)⟩

/-- A plain name as long as can be, and one that is longer, next to a link. -/
theorem output_placed_longest :
    Rom.load linked (Tree.ascii "R") = .ok ⟨[0, 255]⟩ ∧
    (∀ k ∈ [252, 253], ClassName.isPlain (List.replicate k '$') = true ∧
      linked.get? (linked.cwd ++ [ClassName.file (List.replicate k '$')]) = none) ∧
    linked.Gains (embed linked (Tree.ascii "R") (List.replicate 252 '$')).1
      (ClassName.file (List.replicate 252 '$'))
      (ClassText.bytes (List.replicate 252 '$') ⟨[0, 255]⟩) ∧
    (embed linked (Tree.ascii "R") (List.replicate 253 '$')).1 = linked := by
  have hload : Rom.load linked (Tree.ascii "R") = .ok ⟨[0, 255]⟩ := by decide +kernel
  have hnames : ∀ k ∈ [252, 253], ClassName.isPlain (List.replicate k '$') = true ∧
      linked.get? (linked.cwd ++ [ClassName.file (List.replicate k '$')]) = none := by
    decide +kernel
  obtain ⟨hplain, hv⟩ := hnames 252 (by decide)
  obtain ⟨hplain', hv'⟩ := hnames 253 (by decide)
  have hshort : (Utf8.encode (List.replicate 252 '$')).length ≤ 252 := by decide +kernel
  have hlong : 252 < (Utf8.encode (List.replicate 253 '$')).length := by decide +kernel
  exact ⟨hload, hnames, (output_placed.2.2 _ _ _ _ hplain hload hv).2.1 hshort,
    ((output_placed.2.2 _ _ _ _ hplain' hload hv').2.2 hlong).2⟩

end Embedding

end RomEmbed
