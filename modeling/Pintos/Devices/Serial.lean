/-
  The serial port in queued mode (devices/serial.c).

  Bytes are put in the queue `txq` by threads that call `serial_putc`, which may have to wait there, and by
  code that calls it with interrupts off and sends a byte by polling instead.  They leave it in
  `serial_interrupt`, `serial_flush` and when a byte is sent by polling.  The steps are the parts of these
  calls that run with interrupts off; a failed assertion ends a run.
-/
import Pintos.Devices.Intq

namespace Pintos.Devices

open Lib List

universe u

/-- `IER_RECV` and `IER_XMIT`. -/
def ierRecv : UInt8 := 0x01
def ierXmit : UInt8 := 0x02

structure Serial (τ : Type u) where
  txq : Intq τ
  /-- the last value written to `IER_REG` -/
  ier : UInt8
  /-- the values written to `THR_REG`, and the bytes put in `txq`, in order -/
  transmitted : List UInt8
  accepted : List UInt8

/-- The choices: whether the input buffer is full when `write_ier` looks, how many bytes have been
    received with that answer after each of them, and how often the port is ready to send. -/
inductive SerialStep (τ : Type u) where
  /-- `serial_putc` of a thread with interrupts on, and its parts after it was unblocked -/
  | putc (t : τ) (byte : UInt8) (inputFull : Bool)
  | resume (t : τ) (inputFull : Bool)
  /-- `serial_putc` of code with interrupts off -/
  | putcOff (byte : UInt8) (inputFull : Bool)
  | interrupt (received : List Bool) (ready : ℕ) (inputFull : Bool)
  | flush
  | notify (inputFull : Bool)

/-- The byte that a thread in `intq_putc` puts when it goes on. -/
def Place.byte? : Place → Option UInt8
  | .lockUnblocked (.putc byte) => some byte
  | .waitUnblocked (.putc byte) => some byte
  | _ => none

namespace Serial

variable {τ : Type u}

def writeIer (s : Serial τ) (inputFull : Bool) : Serial τ :=
  { s with ier := (if s.txq.ring.Empty then 0 else ierXmit) ||| if inputFull then 0 else ierRecv }

/-- `serial_init_queue`. -/
def init (inputFull : Bool) : Serial τ := writeIer ⟨.init, 0, [], []⟩ inputFull

section
variable [DecidableEq τ]

/-- A byte is taken from the queue, and sent. -/
def transmit (s : Serial τ) : Serial τ :=
  { s with txq := s.txq.transfer .getc, transmitted := s.transmitted ++ [s.txq.ring.buf s.txq.ring.tail] }

/-- The loops of `serial_interrupt` and `serial_flush`, with `n` turns at most. -/
def drain : ℕ → Serial τ → Serial τ
  | 0, s => s
  | n + 1, s => if s.txq.ring.Empty then s else drain n s.transmit

/-- A byte was put in the queue. -/
def accept (s : Serial τ) (txq : Intq τ) (byte : UInt8) (inputFull : Bool) : Serial τ :=
  writeIer { s with txq, accepted := s.accepted ++ [byte] } inputFull

/-- A part of `intq_putc` by the thread `t`, and what follows if the call has returned. -/
def settle (s : Serial τ) (txq : Intq τ) (t : τ) (byte : UInt8) (inputFull : Bool) : Serial τ :=
  if txq.place t = .outside then s.accept txq byte inputFull else { s with txq }

/-- `serial_putc` with interrupts off. -/
def putcOff (s : Serial τ) (byte : UInt8) (inputFull : Bool) : Serial τ :=
  let s := if s.txq.ring.Full intqBufsize then s.transmit else s
  s.accept (s.txq.transfer (.putc byte)) byte inputFull

/-- `serial_interrupt`. -/
def interrupt (s : Serial τ) (received : List Bool) (ready : ℕ) (inputFull : Bool) : Serial τ :=
  ((received.foldl writeIer s).drain ready).writeIer inputFull

/-- What a step leads to. -/
def next (s : Serial τ) : SerialStep τ → Option (Serial τ)
  | .putc t byte inputFull => (s.txq.step (.call t (.putc byte))).map fun txq => s.settle txq t byte inputFull
  | .resume t inputFull =>
    (s.txq.place t).byte?.bind fun byte => (s.txq.step (.resume t)).map fun txq => s.settle txq t byte inputFull
  | .putcOff byte inputFull => some (s.putcOff byte inputFull)
  | .interrupt received ready inputFull => some (s.interrupt received ready inputFull)
  | .flush => some (s.drain intqBufsize)
  | .notify inputFull => some (s.writeIer inputFull)

def step (s : Serial τ) (l : SerialStep τ) : Option (Serial τ) := (s.next l).filter fun s => !s.txq.failed

end

end Serial

/-! ## What the parts of `intq_putc` do -/

section
variable {τ : Type u} [DecidableEq τ] {q q' : Intq τ} {t : τ} {byte : UInt8} {w : Want} {c : Waiter} {p : Place}

namespace Intq

@[simp] theorem ring_unblock (q : Intq τ) (t : τ) : (q.unblock t).ring = q.ring := by
  unfold unblock
  split <;> rfl

theorem outside_unblock {v : τ} (h : q.place t = .outside) : (q.unblock v).place t = .outside := by
  by_cases hv : v = t
  · simp only [unblock, hv, h, Intq.assert]
  · unfold unblock
    split
    · simp [setPlace, Ne.symm hv, h]
    · simp [setPlace, Ne.symm hv, h]
    · exact h

@[simp] theorem ring_signal (q : Intq τ) (c : Waiter) : (q.signal c).ring = q.ring := by
  unfold signal
  dsimp only
  split
  · exact ring_unblock ..
  · rfl

theorem outside_signal (h : q.place t = .outside) : (q.signal c).place t = .outside := by
  unfold signal
  dsimp only
  split
  · exact outside_unblock h
  · exact h

theorem ring_transfer_putc : (q.transfer (.putc byte)).ring = q.ring.put intqBufsize byte := by
  rw [transfer, ring_signal]
  rfl

theorem ring_transfer_getc : (q.transfer .getc).ring = q.ring.take intqBufsize := by
  rw [transfer, ring_signal]
  rfl

theorem acquire_spec (q : Intq τ) (t : τ) (w : Want) : (q.acquire t w).ring = q.ring ∧ (q.acquire t w).place t ≠ .outside := by
  unfold acquire
  split_ifs
  · exact ⟨rfl, by simp [wait, setPlace]⟩
  · exact ⟨rfl, by simp [setPlace]⟩

theorem ring_release (q : Intq τ) (t : τ) : (q.release t).ring = q.ring := by
  unfold release
  dsimp only
  split
  · exact ring_unblock ..
  · rfl

theorem outside_release (h : q.place t = .outside) : (q.release t).place t = .outside := by
  unfold release
  dsimp only
  split
  · exact outside_unblock h
  · exact h

theorem loop_spec (byte : UInt8) (h : q.place t = .outside) :
    ((q.loop t (.putc byte)).ring = q.ring ∧ (q.loop t (.putc byte)).place t ≠ .outside) ∨
    (¬ q.ring.Full intqBufsize ∧ (q.loop t (.putc byte)).ring = q.ring.put intqBufsize byte ∧
      (q.loop t (.putc byte)).place t = .outside) := by
  unfold loop
  split_ifs with hfull
  · left
    exact acquire_spec ..
  · right
    exact ⟨hfull, ring_transfer_putc, outside_signal h⟩

theorem putc_spec {l : IntqStep τ} (hl : l = .call t (.putc byte) ∨ l = .resume t ∧ (q.place t).byte? = some byte)
    (hstep : q.step l = some q') : (q'.ring = q.ring ∧ q'.place t ≠ .outside) ∨
      (¬ q.ring.Full intqBufsize ∧ q'.ring = q.ring.put intqBufsize byte ∧ q'.place t = .outside) := by
  unfold step at hstep
  split_ifs at hstep
  rcases hl with rfl | ⟨rfl, hbyte⟩
  · dsimp only at hstep
    split_ifs at hstep with ht
    obtain rfl := Option.some.inj hstep
    exact loop_spec _ ht
  · have hout : (q.setPlace t .outside).place t = .outside := Function.update_self ..
    cases ht : q.place t with
    | lockUnblocked w =>
      simp only [ht] at hstep
      obtain rfl := Option.some.inj hstep
      left
      exact acquire_spec ..
    | waitUnblocked w =>
      simp only [ht] at hstep hbyte
      obtain rfl := Option.some.inj hstep
      cases w with
      | getc => cases hbyte
      | putc b =>
        obtain rfl := Option.some.inj hbyte
        have := loop_spec b (outside_release hout)
        rwa [ring_release] at this
    | _ =>
      simp only [ht] at hstep
      cases hstep

end Intq

end

/-! ## No byte is lost -/

/-- The bytes in the queue are those that were accepted and not sent yet; if there are any, the
    transmit interrupt is on. -/
structure SerialInv {τ : Type u} (s : Serial τ) : Prop where
  inside : s.txq.ring.Inside intqBufsize
  order : s.transmitted ++ s.txq.ring.contents intqBufsize = s.accepted
  xmit : ¬ s.txq.ring.Empty → s.ier &&& ierXmit ≠ 0

/-- The part without the interrupt enable register, which `write_ier` restores. -/
structure Ordered {τ : Type u} (s : Serial τ) : Prop where
  inside : s.txq.ring.Inside intqBufsize
  order : s.transmitted ++ s.txq.ring.contents intqBufsize = s.accepted

section
variable {τ : Type u} {s s' : Serial τ} {t : τ} {byte : UInt8} {b : Bool} {l : SerialStep τ}

theorem SerialInv.ordered (h : SerialInv s) : Ordered s := ⟨h.inside, h.order⟩

theorem Ordered.writeIer (h : Ordered s) (b : Bool) : SerialInv (s.writeIer b) where
  inside := h.inside
  order := h.order
  xmit := by
    intro hne
    change ((if s.txq.ring.Empty then 0 else ierXmit) ||| if b then 0 else ierRecv) &&& ierXmit ≠ 0
    rw [if_neg (show ¬ s.txq.ring.Empty from hne)]
    cases b <;> decide

theorem SerialInv.received (h : SerialInv s) (received : List Bool) : SerialInv (received.foldl Serial.writeIer s) := by
  induction received generalizing s with
  | nil => exact h
  | cons b received ih => exact ih (h.ordered.writeIer b)

theorem Ordered.accept {txq : Intq τ} (h : Ordered s) (hfull : ¬ s.txq.ring.Full intqBufsize)
    (hring : txq.ring = s.txq.ring.put intqBufsize byte) : SerialInv (s.accept txq byte b) := by
  refine Ordered.writeIer ⟨?_, ?_⟩ b
  · rw [hring]
    exact h.inside.put byte
  · change s.transmitted ++ txq.ring.contents intqBufsize = s.accepted ++ [byte]
    rw [hring, RingBuffer.contents_put h.inside hfull, ← append_assoc, h.order]

theorem SerialInv.settle {txq : Intq τ} (h : SerialInv s)
    (hq : (txq.ring = s.txq.ring ∧ txq.place t ≠ .outside) ∨
      (¬ s.txq.ring.Full intqBufsize ∧ txq.ring = s.txq.ring.put intqBufsize byte ∧ txq.place t = .outside)) :
    SerialInv (s.settle txq t byte b) := by
  unfold Serial.settle
  rcases hq with ⟨hring, hplace⟩ | ⟨hfull, hring, hplace⟩
  · rw [if_neg hplace]
    constructor
    · rw [hring]
      exact h.inside
    · rw [hring]
      exact h.order
    · rw [hring]
      exact h.xmit
  · rw [if_pos hplace]
    exact h.ordered.accept hfull hring

variable [DecidableEq τ]

theorem Ordered.transmit (h : Ordered s) (hne : ¬ s.txq.ring.Empty) : Ordered s.transmit where
  inside := by
    change (s.txq.transfer .getc).ring.Inside intqBufsize
    rw [Intq.ring_transfer_getc]
    exact h.inside.take
  order := by
    change (s.transmitted ++ [s.txq.ring.buf s.txq.ring.tail]) ++ (s.txq.transfer .getc).ring.contents intqBufsize = s.accepted
    rw [Intq.ring_transfer_getc, append_assoc, singleton_append, ← RingBuffer.contents_take h.inside hne]
    exact h.order

theorem Ordered.drain (h : Ordered s) (n : ℕ) : Ordered (s.drain n) := by
  induction n generalizing s with
  | zero => exact h
  | succ n ih =>
    unfold Serial.drain
    split_ifs with hempty
    · exact h
    · exact ih (h.transmit hempty)

theorem drain_empty (n : ℕ) (h : Ordered s) (hn : s.txq.ring.length intqBufsize ≤ n) : (s.drain n).txq.ring.Empty := by
  induction n generalizing s with
  | zero => exact (RingBuffer.empty_iff h.inside).2 (Nat.le_zero.1 hn)
  | succ n ih =>
    unfold Serial.drain
    split_ifs with hempty
    · exact hempty
    · apply ih (h.transmit hempty)
      have hring : s.transmit.txq.ring = s.txq.ring.take intqBufsize := Intq.ring_transfer_getc
      have := RingBuffer.length_take h.inside hempty
      rw [hring]
      omega

theorem SerialInv.putcOff (h : SerialInv s) : SerialInv (s.putcOff byte b) := by
  unfold Serial.putcOff
  split_ifs with hfull
  · -- a byte is sent, so that there is room
    have hne : ¬ s.txq.ring.Empty := by
      have := (RingBuffer.full_iff h.inside).1 hfull
      rw [RingBuffer.empty_iff h.inside]
      unfold intqBufsize at *
      omega
    refine (h.ordered.transmit hne).accept ?_ Intq.ring_transfer_putc
    have hring : s.transmit.txq.ring = s.txq.ring.take intqBufsize := Intq.ring_transfer_getc
    rw [hring]
    exact RingBuffer.not_full_take h.inside hne
  · exact h.ordered.accept hfull Intq.ring_transfer_putc

theorem SerialInv.next (h : SerialInv s) (hnext : s.next l = some s') : SerialInv s' := by
  cases l with
  | putc t byte inputFull =>
    obtain ⟨txq, hstep, rfl⟩ := Option.map_eq_some_iff.1 hnext
    exact h.settle (Intq.putc_spec (.inl rfl) hstep)
  | resume t inputFull =>
    obtain ⟨byte, hbyte, hnext⟩ := Option.bind_eq_some_iff.1 hnext
    obtain ⟨txq, hstep, rfl⟩ := Option.map_eq_some_iff.1 hnext
    exact h.settle (Intq.putc_spec (.inr ⟨rfl, hbyte⟩) hstep)
  | putcOff byte inputFull =>
    cases hnext
    exact h.putcOff
  | interrupt received ready inputFull =>
    cases hnext
    exact ((h.received received).ordered.drain ready).writeIer inputFull
  | flush =>
    cases hnext
    have hempty := drain_empty intqBufsize h.ordered (RingBuffer.length_lt h.inside).le
    exact ⟨(h.ordered.drain _).inside, (h.ordered.drain _).order, fun hne => absurd hempty hne⟩
  | notify inputFull =>
    cases hnext
    exact h.ordered.writeIer inputFull

theorem SerialInv.step (h : SerialInv s) (hstep : s.step l = some s') : SerialInv s' :=
  h.next (Option.filter_eq_some_iff.1 hstep).1

end

end Pintos.Devices
