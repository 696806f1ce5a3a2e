import Mathlib

/-!
# Framing

A stream of frames, each a header of `h` symbols and a content of the size that the header says. The
symbols come in order and may stop anywhere; `x` below are those that do not come. A reader that
takes `h` symbols and then as many as they say takes the frames one after another.
-/

namespace Framing

variable {β : Type*} {h : ℕ} {size : List β → ℕ} {w x c s : List β}

/-- The header and the content of a frame. -/
abbrev Packet (β : Type*) := List β × List β

/-- The header has its length and says the size of the content. -/
structure Sized (h : ℕ) (size : List β → ℕ) (f : Packet β) : Prop where
  length : f.1.length = h
  size : size f.1 = f.2.length

/-- The symbols of the frames. -/
def stream (fs : List (Packet β)) : List β := fs.flatMap fun f => f.1 ++ f.2

@[simp] theorem stream_nil : stream ([] : List (Packet β)) = [] := rfl

@[simp] theorem stream_cons (f : Packet β) (fs : List (Packet β)) :
    stream (f :: fs) = f.1 ++ (f.2 ++ stream fs) := by
  rw [stream, List.flatMap_cons, List.append_assoc]
  rfl

@[simp] theorem stream_append (fs gs : List (Packet β)) :
    stream (fs ++ gs) = stream fs ++ stream gs := List.flatMap_append

/-- The symbols that are there begin with what was sent first. -/
theorem take_of_append (hw : w ++ x = c ++ s) (hl : c.length ≤ w.length) :
    w.take c.length = c ∧ w.drop c.length ++ x = s := by
  have ht : w.take c.length = c := by
    have := congrArg (List.take c.length) hw
    rwa [List.take_append_of_le_length hl, List.take_left] at this
  refine ⟨ht, @List.append_cancel_left _ c _ _ ?_⟩
  calc c ++ (w.drop c.length ++ x)
      = (w.take c.length ++ w.drop c.length) ++ x := by rw [ht, List.append_assoc]
    _ = w ++ x := by rw [List.take_append_drop]
    _ = c ++ s := hw

/-- Where a header is there, it is that of the next frame. -/
theorem take_header {fs : List (Packet β)} (hh : 0 < h) (hf : ∀ f ∈ fs, Sized h size f)
    (hw : w ++ x = stream fs) (hl : h ≤ w.length) :
    ∃ f gs, fs = f :: gs ∧ w.take h = f.1 ∧ size (w.take h) = f.2.length
      ∧ w.drop h ++ x = f.2 ++ stream gs := by
  cases fs with
  | nil =>
    have : w = [] := (List.append_eq_nil_iff.1 hw).1
    rw [this, List.length_nil] at hl
    omega
  | cons f gs =>
    have hs := hf f List.mem_cons_self
    rw [stream_cons] at hw
    obtain ⟨ht, hd⟩ := take_of_append hw (by rwa [hs.length])
    rw [hs.length] at ht hd
    exact ⟨f, gs, rfl, ht, by rw [ht, hs.size], hd⟩

/-- Nothing is on its way where everything that was sent has been taken, and the other way round. -/
theorem stream_eq_nil {fs : List (Packet β)} (hh : 0 < h) (hf : ∀ f ∈ fs, Sized h size f) :
    stream fs = [] ↔ fs = [] := by
  cases fs with
  | nil => simp
  | cons f gs =>
    have hne : f.1 ≠ [] := fun he => by
      have := (hf f List.mem_cons_self).length
      rw [he, List.length_nil] at this
      omega
    simp [hne]

end Framing
