import ComputeKernel.Base
import ComputeKernel.Lib.BoundedDeque
import ComputeKernel.Lib.Run

/-!
# Pipes

The buffer of a pipe is a queue of bounded length.  A write reports every byte as written,
also those that push older ones out of the buffer.
-/

namespace ComputeKernel.Ipc

open Lib

def pipeBufferSize : Nat := 65536

structure Pipe where
  readFd : Int
  writeFd : Int
  buffer : BoundedDeque UInt8 pipeBufferSize := BoundedDeque.empty
  writeClosed : Bool := false
  readClosed : Bool := false

namespace Pipe

def write (pipe : Pipe) (data : Bytes) : Int × Pipe :=
  if pipe.writeClosed ∨ pipe.readClosed then (-32, pipe)
  else (data.length, { pipe with buffer := data.foldl BoundedDeque.append pipe.buffer })

def read (pipe : Pipe) (size : Int) : Bytes × Pipe :=
  let n := (min size pipe.buffer.items.length).toNat
  ((BoundedDeque.popMany n pipe.buffer).1,
    { pipe with buffer := (BoundedDeque.popMany n pipe.buffer).2 })

def closeWrite (pipe : Pipe) : Pipe :=
  { pipe with writeClosed := true }

def closeRead (pipe : Pipe) : Pipe :=
  { pipe with readClosed := true }

def Open (pipe : Pipe) : Prop :=
  ¬ (pipe.writeClosed ∨ pipe.readClosed)

theorem write_of_open {pipe : Pipe} (h : pipe.Open) (data : Bytes) :
    pipe.write data = ((data.length : Int),
      { pipe with buffer := data.foldl BoundedDeque.append pipe.buffer }) :=
  if_neg h

theorem write_of_not_open {pipe : Pipe} (h : ¬ pipe.Open) (data : Bytes) :
    pipe.write data = (-32, pipe) :=
  if_pos (not_not.mp h)

theorem read_append (pipe : Pipe) (size : Int) :
    (pipe.read size).1 ++ (pipe.read size).2.buffer.items = pipe.buffer.items := by
  obtain ⟨htaken, hleft⟩ := BoundedDeque.popMany_eq
    (min size pipe.buffer.items.length).toNat pipe.buffer
  unfold read
  rw [htaken, hleft, List.take_append_drop]

end Pipe

inductive Op
  | write (data : Bytes)
  | read (size : Int)
  | closeWrite
  | closeRead

/-- A pipe, the bytes that its writes reported as written and those that its reads
returned. -/
structure Traffic where
  pipe : Pipe
  accepted : Bytes
  delivered : Bytes

namespace Traffic

def start (readFd writeFd : Int) : Traffic where
  pipe := { readFd := readFd, writeFd := writeFd }
  accepted := []
  delivered := []

/-- A write accepts as many bytes as it returns, and none if it returns an error. -/
def step (s : Traffic) : Op → Traffic
  | .write data =>
      { s with
        pipe := (s.pipe.write data).2
        accepted := s.accepted ++ data.take (s.pipe.write data).1.toNat }
  | .read size =>
      { s with
        pipe := (s.pipe.read size).2
        delivered := s.delivered ++ (s.pipe.read size).1 }
  | .closeWrite => { s with pipe := s.pipe.closeWrite }
  | .closeRead => { s with pipe := s.pipe.closeRead }

def Lossless (s : Traffic) : Prop :=
  s.delivered ++ s.pipe.buffer.items = s.accepted

def Lossy (s : Traffic) : Prop :=
  s.delivered.length + s.pipe.buffer.items.length < s.accepted.length

def HasRoom (s : Traffic) : Op → Prop
  | .write data => s.pipe.Open → s.pipe.buffer.items.length + data.length ≤ pipeBufferSize
  | _ => True

theorem step_write_of_open {s : Traffic} (h : s.pipe.Open) (data : Bytes) :
    s.step (.write data) =
      { s with
        pipe := { s.pipe with buffer := data.foldl BoundedDeque.append s.pipe.buffer }
        accepted := s.accepted ++ data } := by
  simp only [step, Pipe.write_of_open h, Int.toNat_natCast, List.take_length]

theorem step_write_of_not_open {s : Traffic} (h : ¬ s.pipe.Open) (data : Bytes) :
    s.step (.write data) = s := by
  simp only [step, Pipe.write_of_not_open h]
  simp

theorem lossless_step (s : Traffic) (op : Op) (h : s.Lossless) (hroom : s.HasRoom op) :
    (s.step op).Lossless := by
  cases op with
  | write data =>
      by_cases hopen : s.pipe.Open
      · rw [step_write_of_open hopen]
        unfold Lossless at h ⊢
        dsimp only
        rw [BoundedDeque.items_extend_of_le (hroom hopen), ← List.append_assoc, h]
      · rw [step_write_of_not_open hopen]
        exact h
  | read size =>
      change s.delivered ++ (s.pipe.read size).1 ++ (s.pipe.read size).2.buffer.items =
        s.accepted
      rw [List.append_assoc, s.pipe.read_append size]
      exact h
  | closeWrite => exact h
  | closeRead => exact h

theorem lossy_step_of_full (s : Traffic) (op : Op) (h : s.Lossless) (hroom : ¬ s.HasRoom op) :
    (s.step op).Lossy := by
  cases op with
  | write data =>
      obtain ⟨hopen, hfull⟩ := Classical.not_imp.mp hroom
      have hlength := congrArg List.length h
      rw [List.length_append] at hlength
      rw [step_write_of_open hopen]
      unfold Lossy
      dsimp only
      rw [BoundedDeque.length_extend, List.length_append]
      omega
  | read size => exact (hroom trivial).elim
  | closeWrite => exact (hroom trivial).elim
  | closeRead => exact (hroom trivial).elim

theorem lossy_step (s : Traffic) (op : Op) (h : s.Lossy) : (s.step op).Lossy := by
  unfold Lossy at h ⊢
  cases op with
  | write data =>
      by_cases hopen : s.pipe.Open
      · rw [step_write_of_open hopen]
        dsimp only
        rw [BoundedDeque.length_extend, List.length_append]
        omega
      · rw [step_write_of_not_open hopen]
        exact h
  | read size =>
      have hlength := congrArg List.length (s.pipe.read_append size)
      rw [List.length_append] at hlength
      change (s.delivered ++ (s.pipe.read size).1).length +
        (s.pipe.read size).2.buffer.items.length < s.accepted.length
      rw [List.length_append]
      omega
  | closeWrite => exact h
  | closeRead => exact h

theorem not_lossless_of_lossy (s : Traffic) (h : s.Lossy) : ¬ s.Lossless := by
  intro hall
  have hlength := congrArg List.length hall
  rw [List.length_append] at hlength
  unfold Lossy at h
  omega

/-- A pipe has lost nothing that it accepted exactly when every write found room for all its
bytes. -/
theorem lossless_iff (readFd writeFd : Int) (ops : List Op) :
    (Run.run step (start readFd writeFd) ops).Lossless ↔
      Run.Guarded step HasRoom (start readFd writeFd) ops :=
  Run.run_iff_guarded lossless_step lossy_step_of_full lossy_step not_lossless_of_lossy rfl

/-- One write of 65537 bytes reports all of them as written and drops the first. -/
theorem byte_dropped :
    ((start 3 4).pipe.write (List.replicate 65537 0)).1 = 65537 ∧
      ¬ (Run.run step (start 3 4) [.write (List.replicate 65537 0)]).Lossless := by
  have hopen : (start 3 4).pipe.Open := by simp [Pipe.Open, start]
  have hlength : (List.replicate 65537 (0 : UInt8)).length = 65537 := List.length_replicate
  generalize List.replicate 65537 (0 : UInt8) = data at hlength ⊢
  constructor
  · rw [Pipe.write_of_open hopen, hlength]
    rfl
  · have hroom : ¬ (start 3 4).HasRoom (.write data) := by
      intro hroom
      have hfits := hroom hopen
      rw [hlength] at hfits
      exact absurd hfits (by decide)
    have hstart : (start 3 4).Lossless := rfl
    exact not_lossless_of_lossy _ (lossy_step_of_full _ _ hstart hroom)

end Traffic

end ComputeKernel.Ipc
