import Mathlib.Tactic.Common
import Mathlib.Data.List.Infix
import RomEmbed.Output.ClassText
import RomEmbed.Proofs.Output.Literal
import RomEmbed.Proofs.Text.Encoding

/-!
A generated class tells its name and its image, whatever the name is. The name may hold
copies of everything around it, but after it the frame is fixed, and the literal holds one
bracket that opens. So the last such bracket of the class, without the accessors, is that
of the literal, and what stands before it ends the same way in all classes.
-/

namespace RomEmbed.ClassText

/-! ### The cut at the last bracket -/

lemma cutAtBracket?_append (front : Text) {r : Text} (h : '[' ∉ r) :
    cutAtBracket? (front ++ '[' :: r) = some (front, '[' :: r) := by
  have hr : ∀ c ∈ r.reverse, decide (c ≠ '[') = true := by
    intro c hc
    rw [List.mem_reverse] at hc
    simpa using ne_of_mem_of_not_mem hc h
  have hrev : (front ++ '[' :: r).reverse = r.reverse ++ '[' :: front.reverse := by simp
  unfold cutAtBracket?
  rw [hrev, List.dropWhile_append_of_pos hr, List.takeWhile_append_of_pos hr]
  simp

lemma append_of_cutAtBracket? {t front l : Text} (h : cutAtBracket? t = some (front, l)) :
    t = front ++ l := by
  have hsplit := List.takeWhile_append_dropWhile (p := (· ≠ '[')) (l := t.reverse)
  have hhead := List.head?_dropWhile_not (· ≠ '[') t.reverse
  unfold cutAtBracket? at h
  split at h
  · cases h
  · next c r hdrop =>
    simp only [Option.some.injEq, Prod.mk.injEq] at h
    obtain ⟨rfl, rfl⟩ := h
    rw [hdrop] at hsplit hhead
    obtain rfl : c = '[' := by simpa using hhead
    calc t = t.reverse.reverse := (List.reverse_reverse t).symm
      _ = (t.reverse.takeWhile (· ≠ '[') ++ '[' :: r).reverse := by rw [hsplit]
      _ = r.reverse ++ '[' :: (t.reverse.takeWhile (· ≠ '[')).reverse := by simp

/-! ### The frame -/

/-- A class without its opening and its accessors, cut before its literal. -/
lemma cutAtBracket?_body (front : Text) (bs : Bytes) :
    cutAtBracket? (front ++ ArrayLiteral.render bs) =
      some (front, ArrayLiteral.render bs) := by
  obtain ⟨r, hr, hno⟩ := ArrayLiteral.exists_render_eq_cons bs
  rw [hr]
  exact cutAtBracket?_append front hno

lemma isSuffixOf?_append (s t : Text) : s.isSuffixOf? (t ++ s) = some t :=
  List.isSuffixOf?_eq_some_iff_append_eq.mpr rfl

theorem decode?_render (name : Text) (rom : Rom) :
    decode? (embedding name rom).render = some (name, rom) := by
  have hopening : opening.isPrefixOf? (embedding name rom).render =
      some (name ++ assignment ++ ArrayLiteral.render rom.bytes ++ accessors) := by
    rw [List.isPrefixOf?_eq_some_iff_append_eq]
    simp [render, embedding]
  simp only [decode?, Option.bind_eq_bind, Option.bind_eq_some_iff, Prod.exists]
  exact ⟨_, hopening, _, isSuffixOf?_append accessors _, _, _, cutAtBracket?_body _ rom.bytes,
    name, isSuffixOf?_append assignment name, rom.bytes, ArrayLiteral.decode?_render rom.bytes,
    rfl⟩

-- a name that ends as the text before a literal does, with a literal after it
example :
    decode? (embedding (assignment ++ ['[', ']']) ⟨[0, 255]⟩).render =
      some (assignment ++ ['[', ']'], ⟨[0, 255]⟩) := by
  decide +kernel

theorem eq_render_of_decode? {t name : Text} {rom : Rom} (h : decode? t = some (name, rom)) :
    t = (embedding name rom).render := by
  simp only [decode?, Option.bind_eq_bind, Option.bind_eq_some_iff, Prod.exists] at h
  obtain ⟨t1, h1, t2, h2, front, l, hcut, n, hn, bs, hbs, hpair⟩ := h
  obtain ⟨rfl, rfl⟩ : n = name ∧ ⟨bs⟩ = rom := by simpa using hpair
  have e1 := List.append_eq_of_isPrefixOf?_eq_some h1
  have e2 := List.append_eq_of_isSuffixOf?_eq_some h2
  have e3 := append_of_cutAtBracket? hcut
  have e4 := List.append_eq_of_isSuffixOf?_eq_some hn
  have e5 := ArrayLiteral.eq_render_of_decode? hbs
  calc t = opening ++ (front ++ l ++ accessors) := by rw [← e1, ← e2, e3]
    _ = opening ++ (n ++ assignment ++ ArrayLiteral.render bs ++ accessors) := by
      rw [← e4, e5]
    _ = (embedding n ⟨bs⟩).render := by simp [render, embedding]

theorem render_injective {n n' : Text} {r r' : Rom}
    (h : (embedding n r).render = (embedding n' r').render) : n = n' ∧ r = r' := by
  have hd := decode?_render n r
  rw [h, decode?_render] at hd
  simpa [eq_comm] using hd

/-- **The format is uniquely decodable**: the decoder reads the class of every name and
every image, it reads nothing else, and no two pairs of them have one file. -/
theorem uniquely_decodable :
    (∀ name rom, decode? (embedding name rom).render = some (name, rom)) ∧
    (∀ t name rom, decode? t = some (name, rom) → t = (embedding name rom).render) ∧
    (∀ name rom name' rom', bytes name rom = bytes name' rom' → name = name' ∧ rom = rom') :=
  ⟨decode?_render, fun _ _ _ => eq_render_of_decode?,
    fun _ _ _ _ h => render_injective (Utf8.encode_injective h)⟩

end RomEmbed.ClassText
