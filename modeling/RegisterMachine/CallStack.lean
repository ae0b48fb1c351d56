import RegisterMachine.Fault

/-!
# Call stack

Return addresses of the calls a context is in, the innermost first. The depth is bounded.
-/

namespace RegisterMachine

/-- Most nested calls a context may be in. -/
abbrev maxCallDepth : Nat := 256

/-- Return addresses, innermost first. -/
structure CallStack where
  frames : List Nat := []
  maxDepth : Nat := maxCallDepth
  depth_le : frames.length ≤ maxDepth := by simp
  deriving DecidableEq

namespace CallStack

def empty : CallStack where

def withMaxDepth (maxDepth : Nat) : CallStack where
  maxDepth := maxDepth

def depth (s : CallStack) : Nat := s.frames.length

def isEmpty (s : CallStack) : Bool := s.frames.isEmpty

/-- Enters a call; `none` if the bound is reached. -/
def push? (s : CallStack) (returnPc : Nat) : Option CallStack :=
  if h : s.frames.length < s.maxDepth then
    some { s with frames := returnPc :: s.frames, depth_le := h }
  else none

def overflow (s : CallStack) : RuntimeFault := .stackOverflow s.maxDepth

/-- Leaves the innermost call; `none` outside all calls. -/
def pop? (s : CallStack) : Option (Nat × CallStack) :=
  match h : s.frames with
  | [] => none
  | pc :: rest => some (pc, { s with
      frames := rest
      depth_le := by have := s.depth_le; rw [h, List.length_cons] at this; omega })

def peek? (s : CallStack) : Option Nat := s.frames.head?

def outermostFirst (s : CallStack) : List Nat := s.frames.reverse

def text (s : CallStack) : String :=
  "CallStack[" ++ Text.decimal s.depth ++ "/" ++ Text.decimal s.maxDepth ++ "]["
    ++ Text.join ", " (s.outermostFirst.map Text.decimal) ++ "]"

theorem eq_of_frames {s t : CallStack} (hframes : s.frames = t.frames)
    (hmax : s.maxDepth = t.maxDepth) : s = t := by
  cases s
  cases t
  cases hframes
  cases hmax
  rfl

theorem frames_of_push? {s t : CallStack} {pc : Nat} (h : s.push? pc = some t) :
    t.frames = pc :: s.frames ∧ t.maxDepth = s.maxDepth := by
  unfold push? at h
  split at h
  case isTrue =>
    cases h
    exact ⟨rfl, rfl⟩
  case isFalse => cases h

theorem push?_eq_none_iff (s : CallStack) (pc : Nat) :
    s.push? pc = none ↔ s.depth = s.maxDepth := by
  have hle := s.depth_le
  unfold push? depth
  split
  case isTrue hroom => simp only [reduceCtorEq, false_iff]; omega
  case isFalse hfull => simp only [true_iff]; omega

theorem frames_of_pop? {s t : CallStack} {pc : Nat} (h : s.pop? = some (pc, t)) :
    s.frames = pc :: t.frames ∧ t.maxDepth = s.maxDepth := by
  unfold pop? at h
  split at h
  case h_1 => cases h
  case h_2 hframes =>
    cases h
    exact ⟨hframes, rfl⟩

theorem pop?_eq_none_iff (s : CallStack) : s.pop? = none ↔ s.depth = 0 := by
  unfold pop? depth
  split
  case h_1 hframes => simp [hframes]
  case h_2 hframes => simp [hframes]

end CallStack

end RegisterMachine
