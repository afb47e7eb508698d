import Mathlib.Tactic.Common
import RomEmbed.Proofs.CommandLine.Grammar

/-!
Where the escape stands. A command line that gives values is read as these values are, be
they accepted or reported, so the escape may be put at any place before the first argument
that does not look positional, and left out if there is none.
-/

namespace RomEmbed.CommandLine

variable {args args' values pre mid : List Bytes}

/-- The values are taken one after another, and judged at the end. -/
lemma parse_of_spells (h : Spells args values) :
    parse args = Seen.none.takeAll values >>= fun seen => finish ⟨false, seen⟩ := by
  have hfinish (e : Bool) (seen : Seen) : finish ⟨e, seen⟩ = finish ⟨false, seen⟩ := rfl
  unfold parse
  rcases h with ⟨rfl, hall⟩ | ⟨pre, post, rfl, hpre, rfl⟩
  · rw [run_positional (Or.inr hall)]
    cases Seen.none.takeAll args <;> rfl
  · rw [run_escape hpre]
    cases Seen.none.takeAll (pre ++ post) with
    | error r => rfl
    | ok seen => exact hfinish true seen

/-- **Only the values count**, not how they are given. -/
theorem parse_eq_of_spells (h : Spells args values) (h' : Spells args' values) :
    parse args = parse args' := by
  rw [parse_of_spells h, parse_of_spells h']

/-- **The escape may stand anywhere** among arguments that look positional, whatever is behind
them, and it may be left out if those look positional too. -/
theorem parse_escape (h : ∀ a ∈ pre ++ mid, LooksPositional a) (post : List Bytes) :
    parse (pre ++ [escape] ++ mid ++ post) = parse (pre ++ mid ++ [escape] ++ post) ∧
    ((∀ a ∈ post, LooksPositional a) →
      parse (pre ++ [escape] ++ mid ++ post) = parse (pre ++ mid ++ post)) := by
  have hpre : ∀ a ∈ pre, LooksPositional a := fun a ha => h a (List.mem_append_left mid ha)
  have hearly : Spells (pre ++ [escape] ++ mid ++ post) (pre ++ mid ++ post) :=
    Or.inr ⟨pre, mid ++ post, by simp, hpre, by simp⟩
  have hlate : Spells (pre ++ mid ++ [escape] ++ post) (pre ++ mid ++ post) :=
    Or.inr ⟨pre ++ mid, post, rfl, h, rfl⟩
  refine ⟨parse_eq_of_spells hearly hlate, fun hpost => parse_eq_of_spells hearly ?_⟩
  exact Or.inl ⟨rfl, List.forall_mem_append.mpr ⟨h, hpost⟩⟩

/-- An empty ROM is found out by the name, on whichever side of the escape that stands; a flag
behind the escape is a value too many. -/
theorem parse_escape_reported :
    (∀ a ∈ [[]] ++ [[0xFF]], LooksPositional a) ∧
    (∀ a ∈ [Utf8.encode "x".toList], LooksPositional a) ∧
    parse ([[]] ++ [escape] ++ [[0xFF]] ++ [Utf8.encode "--help".toList]) =
      parse ([[]] ++ [[0xFF]] ++ [escape] ++ [Utf8.encode "--help".toList]) ∧
    parse ([[]] ++ [escape] ++ [[0xFF]] ++ [Utf8.encode "x".toList]) =
      parse ([[]] ++ [[0xFF]] ++ [Utf8.encode "x".toList]) := by
  have h : ∀ a ∈ ([[]] ++ [[0xFF]] : List Bytes), LooksPositional a := by decide
  have hpost : ∀ a ∈ [Utf8.encode "x".toList], LooksPositional a := by decide
  exact ⟨h, hpost, (parse_escape h _).1, (parse_escape h _).2 hpost⟩

end RomEmbed.CommandLine
