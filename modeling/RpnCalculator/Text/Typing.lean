import RpnCalculator.Text.Cluster

/-!
# Typed lines

A line that is typed can hold backspaces.  A backspace takes back the cluster before it, or
nothing at the beginning of the line.  A line without a backspace is the line itself
(`typed?_of_notMem`).

## The length of a cluster

What is taken back is counted in bytes, and the length of a cluster is kept in one byte.  So
of a cluster of 256 bytes or more only a part is taken back, and none of it at 256.  A part that
would begin inside a character cannot be taken back, and such a line cannot be read at all.
-/

namespace RpnCalculator
namespace Text

/-- What stands of a line that is being typed. -/
structure Typed where
  /-- The characters, the last one first. -/
  chars : List Char := []
  /-- The lengths of the clusters in bytes, the last one first and each modulo 256. -/
  lengths : List Nat := []

/-- Take bytes off the end of a text, which is given with its last character first; none if
that would cut a character. -/
def takeBack? (n : Nat) : List Char → Option (List Char)
  | [] => if n = 0 then some [] else none
  | c :: cs =>
    if n = 0 then some (c :: cs)
    else if n < c.utf8Size then none
    else takeBack? (n - c.utf8Size) cs

/-- The length of characters in bytes. -/
def byteLength : List Char → Nat
  | [] => 0
  | c :: cs => c.utf8Size + byteLength cs

/-- Type one cluster. -/
def Typed.press? (t : Typed) (cluster : List Char) : Option Typed :=
  if cluster = ['\x08'] then
    match t.lengths with
    | [] => some t
    | n :: lengths => (takeBack? n t.chars).map fun chars => { chars, lengths }
  else
    some
      { chars := cluster.reverse ++ t.chars
        lengths := byteLength cluster % 256 :: t.lengths }

/-- What a typed line comes to. -/
def typed? (line : List Char) : Option (List Char) :=
  ((clusters line).foldlM Typed.press? {}).map fun t => t.chars.reverse

/-- Typing clusters other than backspaces puts them one behind the other. -/
theorem foldlM_press? {l : List (List Char)} (h : ['\x08'] ∉ l) (t : Typed) :
    (l.foldlM Typed.press? t).map Typed.chars = some (l.flatten.reverse ++ t.chars) := by
  induction l generalizing t with
  | nil => simp
  | cons cluster l ih =>
    have hne : cluster ≠ ['\x08'] := fun heq => h (heq ▸ List.mem_cons_self)
    have hl : ['\x08'] ∉ l := fun hmem => h (List.mem_cons_of_mem cluster hmem)
    have hpress : t.press? cluster =
        some
          { chars := cluster.reverse ++ t.chars
            lengths := byteLength cluster % 256 :: t.lengths } :=
      if_neg hne
    simp [hpress, ih hl]

/-- **A line without a backspace is what it comes to.** -/
theorem typed?_of_notMem {line : List Char} (h : '\x08' ∉ line) : typed? line = some line := by
  have hl : ['\x08'] ∉ clusters line := fun hmem =>
    h (flatten_clusters line ▸ List.mem_flatten.mpr ⟨_, hmem, List.mem_singleton.mpr rfl⟩)
  have hfold := congrArg (Option.map List.reverse) (foldlM_press? hl {})
  simpa [typed?, flatten_clusters, Function.comp_def] using hfold

end Text
end RpnCalculator
