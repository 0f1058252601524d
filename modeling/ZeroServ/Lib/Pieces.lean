/-!
# Texts that come in pieces

A stream of notes and of pieces of text, each of some kind. Pieces of one kind that follow one another are one text,
however it was cut: `joined` puts them together.
-/

namespace ZeroServ.Pieces

/-- A note, or a piece of a text of some kind. -/
inductive Piece (ν δ α : Type) where
  | note (n : ν)
  | text (d : δ) (t : List α)
  deriving DecidableEq, Repr

variable {ν δ α : Type} [DecidableEq δ]

/-- A piece more, behind pieces of which the latest is first. -/
def push (acc : List (Piece ν δ α)) : Piece ν δ α → List (Piece ν δ α)
  | .note n => .note n :: acc
  | .text d t =>
    match acc with
    | .text d' t' :: rest => if d' = d then .text d (t' ++ t) :: rest else .text d t :: acc
    | acc => .text d t :: acc

/-- Pieces more. -/
def join (acc ps : List (Piece ν δ α)) : List (Piece ν δ α) := ps.foldl push acc

/-- The texts that pieces make. -/
def joined (ps : List (Piece ν δ α)) : List (Piece ν δ α) := (join [] ps).reverse

/-- Whether the latest piece is of a text. -/
def Ends (d : δ) (acc : List (Piece ν δ α)) : Prop := ∃ t rest, acc = .text d t :: rest

variable {acc : List (Piece ν δ α)} {d : δ}

@[simp] theorem join_nil : join acc [] = acc := rfl

@[simp] theorem join_cons (p : Piece ν δ α) (ps : List (Piece ν δ α)) : join acc (p :: ps) = join (push acc p) ps := rfl

@[simp] theorem join_append (ps qs : List (Piece ν δ α)) : join acc (ps ++ qs) = join (join acc ps) qs :=
  List.foldl_append

theorem push_of_ends {t : List α} {rest : List (Piece ν δ α)} (t' : List α) :
    push (.text d t :: rest) (.text d t') = .text d (t ++ t') :: rest := by
  simp [push]

theorem push_of_not_ends (h : ¬Ends d acc) (t : List α) : push acc (.text d t) = .text d t :: acc := by
  match acc with
  | [] | .note n :: rest => rfl
  | .text d' t' :: rest =>
    have hne : d' ≠ d := by
      rintro rfl
      exact h ⟨t', rest, rfl⟩
    rw [push, if_neg hne]

theorem ends_push (acc : List (Piece ν δ α)) (t : List α) : Ends d (push acc (.text d t)) := by
  match acc with
  | [] => exact ⟨t, [], rfl⟩
  | .note n :: rest => exact ⟨t, _, rfl⟩
  | .text d' t' :: rest =>
    by_cases h : d' = d
    · exact ⟨t' ++ t, rest, by rw [push, if_pos h]⟩
    · exact ⟨t, _, by rw [push, if_neg h]⟩

/-- A text in two pieces is the text. -/
@[simp] theorem push_push (acc : List (Piece ν δ α)) (a b : List α) :
    push (push acc (.text d a)) (.text d b) = push acc (.text d (a ++ b)) := by
  match acc with
  | [] => exact push_of_ends b
  | .note n :: rest => exact push_of_ends b
  | .text d' t' :: rest =>
    by_cases h : d' = d
    · subst h
      rw [push_of_ends, push_of_ends, push_of_ends, List.append_assoc]
    · simp [push, h]

/-- Nothing more of a text changes nothing. -/
theorem push_nil (h : Ends d acc) : push acc (.text d []) = acc := by
  obtain ⟨t, rest, rfl⟩ := h
  rw [push_of_ends, List.append_nil]

end ZeroServ.Pieces
