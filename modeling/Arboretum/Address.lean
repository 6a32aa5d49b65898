import Arboretum.Path.Host

/-!
# Addresses

An address is a text.  One that holds `://` names a scheme, and which store it belongs to is
decided by the text in front (`Arboretum.Registry`); any other address is a path on the host's
disk.
-/

namespace Arboretum.Address

/-- The text that closes a scheme. -/
def mark : List Char := [':', '/', '/']

/-- A text cut after the first scheme mark in it, or `none` where it has none. -/
def cut? : List Char → Option (List Char × List Char)
  | [] => none
  | c :: cs =>
    match Path.after? mark (c :: cs) with
    | some rest => some (mark, rest)
    | none => (cut? cs).map fun (scheme, rest) => (c :: scheme, rest)

/-- The two pieces of a cut make up the text. -/
theorem append_of_cut? {cs scheme rest : List Char} (h : cut? cs = some (scheme, rest)) :
    cs = scheme ++ rest := by
  induction cs generalizing scheme with
  | nil => simp [cut?] at h
  | cons c cs ih =>
    rw [cut?] at h
    split at h
    · next r hr =>
      obtain ⟨rfl, rfl⟩ := Prod.mk.inj (Option.some.inj h)
      exact Path.after?_eq_some_iff.1 hr
    · obtain ⟨⟨s, r⟩, hs, he⟩ := Option.map_eq_some_iff.1 h
      obtain ⟨rfl, rfl⟩ := Prod.mk.inj he
      simpa using ih hs

/-- A text is cut exactly if the mark stands in it. -/
theorem isSome_cut?_iff {cs : List Char} :
    (cut? cs).isSome = true ↔ ∃ front rest, cs = front ++ mark ++ rest := by
  induction cs with
  | nil =>
    constructor
    · exact fun h => nomatch h
    · rintro ⟨front, rest, h⟩
      have hlen := congrArg List.length h
      simp [mark] at hlen
  | cons c cs ih =>
    rw [cut?]
    cases ha : Path.after? mark (c :: cs) with
    | some rest => exact ⟨fun _ => ⟨[], rest, Path.after?_eq_some_iff.1 ha⟩, fun _ => rfl⟩
    | none =>
      dsimp only
      rw [Option.isSome_map, ih]
      constructor
      · rintro ⟨front, rest, rfl⟩
        exact ⟨c :: front, rest, rfl⟩
      · rintro ⟨front, rest, h⟩
        cases front with
        | nil =>
          rw [List.nil_append] at h
          rw [Path.after?_eq_some_iff.2 h] at ha
          cases ha
        | cons d front =>
          obtain ⟨-, h⟩ := List.cons.inj h
          exact ⟨front, rest, h⟩

/-- The address names a scheme. -/
def hasScheme (uri : String) : Bool := (cut? uri.toList).isSome

/-- **An address names a scheme** exactly if the mark stands in it. -/
theorem hasScheme_iff {uri : String} :
    hasScheme uri = true ↔ ∃ front rest, uri.toList = front ++ mark ++ rest := isSome_cut?_iff

/-- **The scheme and the rest** of an address; without a scheme all of it is rest. -/
def split (uri : String) : String × String :=
  match cut? uri.toList with
  | some (scheme, rest) => (String.ofList scheme, String.ofList rest)
  | none => ("", uri)

end Arboretum.Address
