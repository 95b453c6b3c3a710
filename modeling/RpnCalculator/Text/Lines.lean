/-!
# Lines

A line ends after a line feed, and the last one at the end of the text.  The lines
*with* their ends, put together, are the text (`flatten_cutAfter`); a text that ends in
a line feed has no empty line after it.

Lines are cut in two ways.  `cutAfter` cuts everything at once.  `splitAfter` takes the
first line off and leaves the rest unread, which is how a script is read.  The two
agree (`cutAfter_eq_cons`).
-/

namespace RpnCalculator
namespace Text

variable {α : Type}

/-- The elements up to and including the first that ends a line, and the rest. -/
def splitAfter (stop : α → Bool) : List α → List α × List α
  | [] => ([], [])
  | a :: l =>
    if stop a then ([a], l)
    else (a :: (splitAfter stop l).1, (splitAfter stop l).2)

@[simp] theorem splitAfter_append (stop : α → Bool) (l : List α) :
    (splitAfter stop l).1 ++ (splitAfter stop l).2 = l := by
  induction l with
  | nil => rfl
  | cons a l ih =>
    unfold splitAfter
    split
    · rfl
    · simp [ih]

/-- Taking a line off a text that is not empty makes it shorter. -/
theorem length_splitAfter_lt (stop : α → Bool) (a : α) (l : List α) :
    (splitAfter stop (a :: l)).2.length < (a :: l).length := by
  have h := congrArg List.length (splitAfter_append stop (a :: l))
  rw [List.length_append] at h
  have : 0 < (splitAfter stop (a :: l)).1.length := by
    unfold splitAfter
    split <;> simp
  omega

/-- All lines, each with its end. -/
def cutAfter (stop : α → Bool) : List α → List (List α)
  | [] => []
  | a :: l =>
    if stop a then [a] :: cutAfter stop l
    else
      match cutAfter stop l with
      | [] => [[a]]
      | x :: xs => (a :: x) :: xs

/-- No element is lost and none is added. -/
theorem flatten_cutAfter (stop : α → Bool) (l : List α) : (cutAfter stop l).flatten = l := by
  induction l with
  | nil => rfl
  | cons a l ih =>
    unfold cutAfter
    split
    · simp [ih]
    · split
      · rename_i h
        rw [h] at ih
        simp [← ih]
      · rename_i x xs h
        rw [h] at ih
        simp [← ih]

/-- Cutting takes off the first line and cuts the rest. -/
theorem cutAfter_eq_cons (stop : α → Bool) (a : α) (l : List α) :
    cutAfter stop (a :: l) =
      (splitAfter stop (a :: l)).1 :: cutAfter stop (splitAfter stop (a :: l)).2 := by
  induction l generalizing a with
  | nil =>
    unfold cutAfter splitAfter
    split <;> rfl
  | cons b l ih =>
    rw [cutAfter, splitAfter]
    split
    · rfl
    · rw [ih b]

/-- A line without its end: a line feed, or a carriage return and a line feed.  A
carriage return with no line feed after it stays. -/
def dropEnd (line : List Char) : List Char :=
  match line.reverse with
  | '\n' :: '\r' :: r => r.reverse
  | '\n' :: r => r.reverse
  | _ => line

/-- The lines of a text, without their ends. -/
def lines (text : List Char) : List (List Char) := (cutAfter (· == '\n') text).map dropEnd

end Text
end RpnCalculator
