import Hivebus.Pxeboot.Tftp

namespace Hivebus.Pxeboot
open Lib Proto

/-- The transfer of `serve_tftp_read` when each read returns what it likes. `reads` are the
results still to come; after the last one the file is at its end and a read returns no
bytes. -/
structure ReadSender where
  reads : List (List UInt8)
  block : UInt16
  chunk : List UInt8
  retries : Nat
  progress : Progress

namespace ReadSender

def begin (reads : List (List UInt8)) : ReadSender where
  reads := reads.tail
  block := 1
  chunk := reads.headD []
  retries := 0
  progress := .sending

def packet (s : ReadSender) : List UInt8 := buildTftpData s.block s.chunk

def hear (client : SocketAddr) (s : ReadSender) (h : Sender.Heard) : ReadSender :=
  match s.progress with
  | .waiting =>
    if Sender.acknowledges client s.block h then
      if s.chunk.length < tftpBlockSize then { s with progress := .complete }
      else {
        reads := s.reads.tail
        block := s.block + 1
        chunk := s.reads.headD []
        retries := 0
        progress := .sending }
    else if s.retries + 1 ≥ tftpMaxRetries then
      { s with retries := s.retries + 1, progress := .aborted }
    else { s with retries := s.retries + 1, progress := .sending }
  | _ => s

end ReadSender

/-- Reads that return all there is room for. -/
def fullReads (file : List UInt8) : List (List UInt8) :=
  if _h : file = [] then []
  else file.take tftpBlockSize :: fullReads (file.drop tftpBlockSize)
termination_by file.length
decreasing_by
  have hpos : 0 < file.length := List.length_pos_iff.mpr _h
  have hsize : 0 < tftpBlockSize := by decide
  rw [List.length_drop]
  omega

theorem fullReads_headD (file : List UInt8) :
    (fullReads file).headD [] = file.take tftpBlockSize := by
  rw [fullReads]
  split
  · next h => rw [h]; rfl
  · rfl

theorem fullReads_tail (file : List UInt8) :
    (fullReads file).tail = fullReads (file.drop tftpBlockSize) := by
  by_cases h : file = []
  · rw [h, List.drop_nil, fullReads]
    rfl
  · conv => lhs; rw [fullReads, dif_neg h]
    rfl

/-- The sender that always fills its buffer is the one with full reads. -/
def Sender.toReads (s : Sender) : ReadSender where
  reads := fullReads s.rest
  block := s.block
  chunk := s.chunk
  retries := s.retries
  progress := s.progress

theorem Sender.begin_toReads (file : List UInt8) :
    (Sender.begin file).toReads = .begin (fullReads file) := by
  simp only [Sender.toReads, Sender.begin, ReadSender.begin, fullReads_headD, fullReads_tail]

theorem Sender.hear_toReads (client : SocketAddr) (s : Sender) (h : Sender.Heard) :
    (s.hear client h).toReads = s.toReads.hear client h := by
  cases hp : s.progress with
  | waiting =>
    simp only [Sender.hear, ReadSender.hear, Sender.toReads, hp]
    split
    · split
      · rfl
      · simp only [fullReads_headD, fullReads_tail]
    · split
      · rfl
      · rfl
  | sending => simp only [Sender.hear, ReadSender.hear, Sender.toReads, hp]
  | complete => simp only [Sender.hear, ReadSender.hear, Sender.toReads, hp]
  | aborted => simp only [Sender.hear, ReadSender.hear, Sender.toReads, hp]

/-- A transfer whose reads fill the buffer goes as one with the reads cut in full blocks. -/
theorem Sender.exec_toReads (client : SocketAddr) (file : List UInt8) (hs : List Sender.Heard) :
    (Run.exec (Sender.hear client) (.begin file) hs).toReads =
      Run.exec (ReadSender.hear client) (.begin (fullReads file)) hs := by
  rw [Run.exec_hom Sender.toReads (Sender.hear_toReads client), Sender.begin_toReads]

/-- What the reads of a file may return, one after the other: some of the bytes that are
left, at most as many as the buffer has room for. -/
structure Splitting (file : List UInt8) where
  reads : List (List UInt8)
  sizes : ∀ c ∈ reads, 1 ≤ c.length ∧ c.length ≤ tftpBlockSize
  whole : reads.flatten = file

end Hivebus.Pxeboot
