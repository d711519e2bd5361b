import Mathlib
import DramBender.Lib.Transition
/-!
# The readback path

`platform.cpp`: the host thread executes programs and asks for data, the
receiver thread of `consumeData_` moves what the board sends into the ring
buffer. One step is what one thread does between two points where the other
can act; a push or a pop moves any number of words there is room for.
-/

namespace DRAMBender

open Relation

namespace Platform

/-- A word of the ring buffer. -/
abbrev Word_t := BitVec 32

/-- 256-bit AXI datapath width, in bytes. -/
def axi_datapath_byte_width : Nat := 32

/-- The size of the readback buffer, in AXI transactions. -/
def readback_buffer_size : Nat := 1024

/-- The default size of the ring buffer, in words. -/
def recv_ringbuffer_size : Nat := 1024 * 1024 * 2

/-- What the board sends for one program: 64 bytes for each READ, and the
32-byte end marker. -/
structure Readback where
  reads : Nat
  data : List Word_t
  marker : List Word_t
  data_length : data.length = 16 * reads
  marker_length : marker.length = 8

/-- What the host calls. -/
inductive HostCall where
  | execute (prog : Readback)
  | receiveData (num_bytes : Nat)

/-- Where the host thread is. -/
inductive Host where
  | idle
  | joining (prog : Readback)
  | sending (prog : Readback)
  | popping (num_bytes : Nat) (dst_buf : List Word_t)

/-- Where the receiver thread is: in `recvData`, or pushing the words left of a
transfer of `recv_count` bytes, or at its end. -/
inductive Receiver where
  | receiving
  | pushing (recv_buffer : List Word_t) (recv_count : Nat)
  | done

/-- `receiver` is `none` before the first thread is started. `sent` and
`received` record the programs the board got and the words `receiveData`
returned. -/
structure State where
  todo : List HostCall
  host : Host := .idle
  receiver : Option Receiver := none
  board : List Word_t := []
  ring : List Word_t := []
  sent : List Readback := []
  received : List Word_t := []

/-- What one transfer asks for. -/
def bytes_to_recv : Nat := axi_datapath_byte_width * readback_buffer_size

/-- The transfer of `size` bytes out of the words left: the words, and how many
bytes they are. -/
def recvData (size : Nat) (board : List Word_t) : List Word_t × Nat :=
  (board.take (size / 4), 4 * (board.take (size / 4)).length)

/-- `size_t` subtraction. -/
def size_sub (a b : Nat) : Nat := (a + 2 ^ 64 - b) % 2 ^ 64

/-- How many words of a transfer go to the ring buffer: a short one ends with
the marker. -/
def num_words_to_read (recv_count : Nat) : Nat :=
  if recv_count ≠ bytes_to_recv then size_sub recv_count axi_datapath_byte_width / 4 else bytes_to_recv / 4

/-- The steps, with a ring buffer of `cap` words. The receiver's transfer waits
for the program to be sent. -/
inductive Step (cap : Nat) : State → State → Prop
  | execute {s : State} {prog : Readback} {rest : List HostCall} (hh : s.host = .idle)
      (ht : s.todo = .execute prog :: rest) : Step cap s { s with host := .joining prog, todo := rest }
  | join {s : State} {prog : Readback} (hh : s.host = .joining prog)
      (hr : s.receiver = none ∨ s.receiver = some .done) :
      Step cap s { s with host := .sending prog, receiver := some .receiving }
  | sendData {s : State} {prog : Readback} (hh : s.host = .sending prog) :
      Step cap s { s with host := .idle, board := s.board ++ (prog.data ++ prog.marker), sent := s.sent ++ [prog] }
  | receiveData {s : State} {num_bytes : Nat} {rest : List HostCall} (hh : s.host = .idle)
      (ht : s.todo = .receiveData num_bytes :: rest) : Step cap s { s with host := .popping num_bytes [], todo := rest }
  | pop {s : State} {num_bytes : Nat} {dst_buf : List Word_t} {k : Nat} (hh : s.host = .popping num_bytes dst_buf)
      (hk : 0 < k) (hw : dst_buf.length + k ≤ num_bytes / 4) (hn : k ≤ s.ring.length) :
      Step cap s { s with host := .popping num_bytes (dst_buf ++ s.ring.take k), ring := s.ring.drop k }
  | popped {s : State} {num_bytes : Nat} {dst_buf : List Word_t} (hh : s.host = .popping num_bytes dst_buf)
      (hw : num_bytes / 4 ≤ dst_buf.length) : Step cap s { s with host := .idle, received := s.received ++ dst_buf }
  | recvNothing {s : State} (hr : s.receiver = some .receiving) (hh : ∀ prog, s.host ≠ .sending prog)
      (hz : (recvData bytes_to_recv s.board).2 = 0) : Step cap s { s with receiver := some .done }
  | recv {s : State} (hr : s.receiver = some .receiving) (hh : ∀ prog, s.host ≠ .sending prog)
      (hz : (recvData bytes_to_recv s.board).2 ≠ 0) :
      Step cap s { s with
        receiver := some (.pushing
          ((recvData bytes_to_recv s.board).1.take (num_words_to_read (recvData bytes_to_recv s.board).2))
          (recvData bytes_to_recv s.board).2)
        board := s.board.drop (bytes_to_recv / 4) }
  | push {s : State} {recv_buffer : List Word_t} {recv_count k : Nat}
      (hr : s.receiver = some (.pushing recv_buffer recv_count)) (hk : 0 < k) (hw : k ≤ recv_buffer.length)
      (hn : s.ring.length + k ≤ cap) :
      Step cap s { s with
        receiver := some (.pushing (recv_buffer.drop k) recv_count)
        ring := s.ring ++ recv_buffer.take k }
  | pushed {s : State} {recv_count : Nat} (hr : s.receiver = some (.pushing [] recv_count)) :
      Step cap s { s with receiver := some (if recv_count ≠ bytes_to_recv then .done else .receiving) }

/-- The states some interleaving of the two threads reaches. -/
def Reach (cap : Nat) (calls : List HostCall) (s : State) : Prop := ReflTransGen (Step cap) { todo := calls } s

/-- The programs executed by a sequence of calls. -/
def programs (calls : List HostCall) : List Readback :=
  calls.filterMap fun c => match c with
    | .execute prog => some prog
    | .receiveData _ => none

/-! ## Where the data words are -/

/-- What `receiveData` has taken out of the ring buffer. -/
def State.popped (s : State) : List Word_t :=
  s.received ++ match s.host with
    | .popping _ dst_buf => dst_buf
    | _ => []

/-- What the receiver still has to push. -/
def State.pending (s : State) : List Word_t :=
  match s.receiver with
  | some (.pushing recv_buffer _) => recv_buffer
  | _ => []

/-- The receiver will ask the board again. -/
def State.Streaming (s : State) : Prop :=
  (s.receiver = some .receiving ∧ ∀ prog, s.host ≠ .sending prog) ∨
    ∃ recv_buffer, s.receiver = some (.pushing recv_buffer bytes_to_recv)

/-- The board still holds `rest` of the last program's data, and its marker. -/
def OnBoard (s : State) (rest : List Word_t) : Prop :=
  ∃ prog, s.sent.getLast? = some prog ∧ s.board = rest ++ prog.marker ∧ 16 ∣ rest.length

/-- Every data word sent is in one place, in order, and the marker is still to
come exactly while the receiver goes on. -/
structure Flow (s : State) (rest : List Word_t) : Prop where
  data : s.popped ++ s.ring ++ s.pending ++ rest = s.sent.flatMap Readback.data
  streaming : s.Streaming → OnBoard s rest
  drained : ¬ s.Streaming → s.board = [] ∧ rest = []
  sending : ∀ prog, s.host = .sending prog → s.receiver = some .receiving

theorem bytes_to_recv_eq : bytes_to_recv = 32768 := rfl

theorem size_sub_eq {a b : Nat} (hb : b ≤ a) (ha : a < 2 ^ 64) : size_sub a b = a - b := by
  rw [size_sub]
  omega

/-- A transfer never ends exactly behind the marker: it is full, and takes data
only, or short, and takes all. -/
theorem recvData_spec {rest marker : List Word_t} (hm : marker.length = 8) (hr : 16 ∣ rest.length) :
    (8192 ≤ rest.length ∧ recvData bytes_to_recv (rest ++ marker) = (rest.take 8192, bytes_to_recv)) ∨
    (rest.length < 8192 ∧ (recvData bytes_to_recv (rest ++ marker)).1 = rest ++ marker ∧
      (recvData bytes_to_recv (rest ++ marker)).2 = 4 * rest.length + 32) := by
  have h4 : bytes_to_recv / 4 = 8192 := rfl
  obtain ⟨m, hm16⟩ := hr
  unfold recvData
  rw [h4]
  rcases Nat.lt_or_ge rest.length 8192 with hlt | hge
  · right
    have htake : (rest ++ marker).take 8192 = rest ++ marker :=
      List.take_of_length_le (by rw [List.length_append, hm]; omega)
    refine ⟨hlt, htake, ?_⟩
    dsimp only
    rw [htake, List.length_append, hm]
    omega
  · left
    have htake : (rest ++ marker).take 8192 = rest.take 8192 := List.take_append_of_le_length hge
    refine ⟨hge, ?_⟩
    rw [htake, List.length_take, Nat.min_eq_left hge]
    rfl

theorem num_words_full : num_words_to_read bytes_to_recv = 8192 := rfl

theorem num_words_short {n : Nat} (h : n < 8192) (hd : 16 ∣ n) : num_words_to_read (4 * n + 32) = n := by
  have hne : 4 * n + 32 ≠ bytes_to_recv := by
    rw [bytes_to_recv_eq]
    omega
  rw [num_words_to_read, if_pos hne, axi_datapath_byte_width, size_sub_eq (show 32 ≤ 4 * n + 32 by omega) (by omega)]
  omega

theorem flow_init (calls : List HostCall) : Flow { todo := calls } [] := by
  refine ⟨rfl, ?_, fun _ => ⟨rfl, rfl⟩, by simp⟩
  rintro (⟨h, -⟩ | ⟨_, h⟩) <;> cases h

/-- A step of the host that starts no program. -/
theorem Flow.of_host {s s' : State} {rest : List Word_t} (h : Flow s rest) (hr : s'.receiver = s.receiver)
    (hb : s'.board = s.board) (hsent : s'.sent = s.sent) (hs : ∀ prog, s.host ≠ .sending prog)
    (hs' : ∀ prog, s'.host ≠ .sending prog) (hd : s'.popped ++ s'.ring = s.popped ++ s.ring) : Flow s' rest := by
  have hst : s'.Streaming ↔ s.Streaming := by
    simp only [State.Streaming, hr, hs, hs', ne_eq, not_false_eq_true, implies_true, and_true]
  have hpend : s'.pending = s.pending := by rw [State.pending, hr]; rfl
  refine ⟨?_, fun h' => ?_, fun h' => ?_, fun prog hp => absurd hp (hs' prog)⟩
  · rw [hd, hpend, hsent, h.data]
  · obtain ⟨prog, h1, h2, h3⟩ := h.streaming (hst.1 h')
    exact ⟨prog, hsent ▸ h1, hb ▸ h2, h3⟩
  · rw [hb]
    exact h.drained fun hs => h' (hst.2 hs)

/-- A transfer takes data only, or the last data and the marker. -/
theorem Flow.recv {s : State} {rest : List Word_t} (h : Flow s rest) (hr : s.receiver = some .receiving)
    (hh : ∀ prog, s.host ≠ .sending prog) :
    (recvData bytes_to_recv s.board).2 ≠ 0 ∧
    Flow { s with
      receiver := some (.pushing
        ((recvData bytes_to_recv s.board).1.take (num_words_to_read (recvData bytes_to_recv s.board).2))
        (recvData bytes_to_recv s.board).2)
      board := s.board.drop (bytes_to_recv / 4) } (rest.drop 8192) := by
  obtain ⟨prog, hlast, hb, hdvd⟩ := h.streaming (.inl ⟨hr, hh⟩)
  have hm := prog.marker_length
  have hd := h.data
  simp only [State.pending, hr, List.append_nil] at hd
  have h4 : bytes_to_recv / 4 = 8192 := rfl
  rw [hb, h4]
  rcases recvData_spec hm hdvd with ⟨hge, e⟩ | ⟨hlt, e1, e2⟩
  · rw [e]
    refine ⟨(by decide : bytes_to_recv ≠ 0), ?_, fun _ => ⟨prog, hlast, ?_, ?_⟩, fun hst => absurd (Or.inr ⟨_, rfl⟩) hst,
      fun p hp => absurd hp (hh p)⟩
    · simp only [State.pending, State.popped, num_words_full, List.take_take, Nat.min_self] at hd ⊢
      rw [List.append_assoc _ (rest.take 8192), List.take_append_drop]
      exact hd
    · exact List.drop_append_of_le_length hge
    · rw [List.length_drop]
      exact Nat.dvd_sub hdvd (by decide)
  · have hdrop : (rest ++ prog.marker).drop 8192 = [] :=
      List.drop_eq_nil_of_le (by rw [List.length_append, hm]; obtain ⟨m, hm⟩ := hdvd; omega)
    have hrest : rest.drop 8192 = [] := List.drop_eq_nil_of_le hlt.le
    rw [hrest, hdrop, e1, e2, num_words_short hlt hdvd, List.take_left]
    refine ⟨by omega, ?_, fun hst => ?_, fun _ => ⟨rfl, rfl⟩, fun p hp => absurd hp (hh p)⟩
    · simp only [State.pending, State.popped, List.append_nil] at hd ⊢
      exact hd
    · exfalso
      rcases hst with ⟨hr', -⟩ | ⟨buf, hr'⟩
      · cases hr'
      · simp only [Option.some.injEq, Receiver.pushing.injEq, bytes_to_recv_eq] at hr'
        omega

/-- One step moves words along. -/
theorem flow_step {cap : Nat} {s s' : State} {rest : List Word_t} (h : Flow s rest) (hs : Step cap s s') :
    ∃ rest', Flow s' rest' := by
  cases hs with
  | @execute prog todo hh ht =>
    refine ⟨rest, h.of_host rfl rfl rfl (by simp [hh]) (by simp) ?_⟩
    simp only [State.popped, hh]
  | @join prog hh hr =>
    have hno : ¬ s.Streaming := by
      rintro (⟨hr', -⟩ | ⟨_, hr'⟩) <;> rcases hr with hr | hr <;> simp [hr] at hr'
    have hpend : s.pending = [] := by rcases hr with hr | hr <;> simp [State.pending, hr]
    obtain ⟨hb, rfl⟩ := h.drained hno
    refine ⟨[], ?_, ?_, fun _ => ⟨hb, rfl⟩, fun _ _ => rfl⟩
    · have hd := h.data
      simp only [State.popped, hh, hpend] at hd
      exact hd
    · rintro (⟨-, hns⟩ | ⟨_, hr'⟩)
      · exact absurd rfl (hns prog)
      · cases hr'
  | @sendData prog hh =>
    have hr := h.sending prog hh
    have hno : ¬ s.Streaming := by
      rintro (⟨-, hns⟩ | ⟨_, hr'⟩)
      · exact hns prog hh
      · rw [hr] at hr'
        cases hr'
    have hpend : s.pending = [] := by simp [State.pending, hr]
    obtain ⟨hb, rfl⟩ := h.drained hno
    refine ⟨prog.data, ?_, fun _ => ⟨prog, by simp, ?_, ?_⟩, fun hst => absurd (Or.inl ⟨hr, by simp⟩) hst, by simp⟩
    · have hd := h.data
      simp only [State.popped, hh, hpend, List.append_nil] at hd
      rw [List.flatMap_append, List.flatMap_singleton, ← hd]
      simp only [State.popped, State.pending, hr, List.append_nil]
    · rw [hb, List.nil_append]
    · exact ⟨prog.reads, prog.data_length⟩
  | @receiveData num_bytes todo hh ht =>
    refine ⟨rest, h.of_host rfl rfl rfl (by simp [hh]) (by simp) ?_⟩
    simp only [State.popped, hh]
  | @pop num_bytes dst_buf k hh hk hw hn =>
    refine ⟨rest, h.of_host rfl rfl rfl (by simp [hh]) (by simp) ?_⟩
    simp only [State.popped, hh, List.append_assoc, List.take_append_drop]
  | @popped num_bytes dst_buf hh hw =>
    refine ⟨rest, h.of_host rfl rfl rfl (by simp [hh]) (by simp) ?_⟩
    simp only [State.popped, hh, List.append_nil]
  | recvNothing hr hh hz => exact absurd hz (h.recv hr hh).1
  | recv hr hh hz => exact ⟨_, (h.recv hr hh).2⟩
  | @push recv_buffer recv_count k hr hk hw hn =>
    have hd := h.data
    simp only [State.popped, State.pending, hr] at hd
    have hst : State.Streaming { s with
          receiver := some (.pushing (recv_buffer.drop k) recv_count)
          ring := s.ring ++ recv_buffer.take k } ↔ s.Streaming := by
      simp [State.Streaming, hr]
    refine ⟨rest, ?_, fun h' => h.streaming (hst.1 h'), fun h' => h.drained fun hs => h' (hst.2 hs), fun prog hp => ?_⟩
    · simp only [State.popped, State.pending]
      rw [← List.append_assoc _ s.ring, List.append_assoc _ (recv_buffer.take k), List.take_append_drop]
      exact hd
    · cases hr.symm.trans (h.sending prog hp)
  | @pushed recv_count hr =>
    have hd := h.data
    have hns : ∀ prog, s.host ≠ .sending prog := fun prog hp => by cases hr.symm.trans (h.sending prog hp)
    have hst : State.Streaming { s with
          receiver := some (if recv_count ≠ bytes_to_recv then .done else .receiving) } ↔ s.Streaming := by
      by_cases he : recv_count = bytes_to_recv <;> simp [State.Streaming, hr, he, hns]
    refine ⟨rest, ?_, fun h' => h.streaming (hst.1 h'), fun h' => h.drained fun hs => h' (hst.2 hs), fun prog hp =>
      absurd hp (hns prog)⟩
    simp only [State.popped, State.pending, hr, List.append_nil] at hd ⊢
    by_cases he : recv_count = bytes_to_recv <;> simpa [he] using hd

/-! ## Where the host is -/

/-- How many words a sequence of calls takes out of the ring buffer. -/
def asked (calls : List HostCall) : Nat :=
  (calls.map fun c => match c with
    | .execute _ => 0
    | .receiveData num_bytes => num_bytes / 4).sum

/-- How many data words its programs make. -/
def produced (calls : List HostCall) : Nat := ((programs calls).flatMap Readback.data).length

/-- The call the host is in. -/
def State.current (s : State) : List HostCall :=
  match s.host with
  | .idle => []
  | .joining prog => [.execute prog]
  | .sending prog => [.execute prog]
  | .popping num_bytes _ => [.receiveData num_bytes]

/-- No `execute` comes when more than `cap` words have not been handed out. -/
def Bounded (cap : Nat) (calls : List HostCall) : Prop :=
  ∀ pre prog post, calls = pre ++ .execute prog :: post → produced pre ≤ asked pre + cap

/-- The calls `past` are done; each `execute` among them found the words before
it handed out or in the ring buffer. -/
structure Progress (cap : Nat) (calls : List HostCall) (s : State) (past : List HostCall) : Prop where
  calls : calls = past ++ (s.current ++ s.todo)
  sent : s.sent = programs past
  received : s.received.length = asked past
  popping : ∀ num_bytes dst_buf, s.host = .popping num_bytes dst_buf → dst_buf.length ≤ num_bytes / 4
  room : s.ring.length ≤ cap
  bounded : Bounded cap past
  sending : ∀ prog, s.host = .sending prog → produced past ≤ asked past + cap

theorem programs_append (cs ds : List HostCall) : programs (cs ++ ds) = programs cs ++ programs ds :=
  List.filterMap_append

theorem asked_append (cs ds : List HostCall) : asked (cs ++ ds) = asked cs + asked ds := by
  simp [asked]

theorem bounded_snoc {cap : Nat} {past : List HostCall} {c : HostCall} (h : Bounded cap past)
    (hc : ∀ prog, c = .execute prog → produced past ≤ asked past + cap) : Bounded cap (past ++ [c]) := by
  intro pre prog post e
  rcases List.eq_nil_or_concat post with rfl | ⟨post, d, rfl⟩
  · obtain ⟨e1, e2⟩ := List.append_inj' e rfl
    subst e1
    exact hc prog (List.singleton_inj.1 e2)
  · rw [List.concat_eq_append, ← List.cons_append, ← List.append_assoc] at e
    obtain ⟨rfl, -⟩ := List.append_inj' e rfl
    exact h pre prog post rfl

theorem progress_init (cap : Nat) (calls : List HostCall) : Progress cap calls { todo := calls } [] := by
  refine ⟨rfl, rfl, rfl, by simp, Nat.zero_le _, fun pre prog post e => ?_, by simp⟩
  cases pre <;> cases e

/-- While no receiver runs, every word sent has been popped or is in the ring
buffer. -/
theorem length_of_drained {s : State} {rest : List Word_t} (h : Flow s rest)
    (hr : s.receiver = none ∨ s.receiver = some .done) :
    s.popped.length + s.ring.length = (s.sent.flatMap Readback.data).length := by
  have hno : ¬ s.Streaming := by
    rintro (⟨hr', -⟩ | ⟨_, hr'⟩) <;> rcases hr with hr | hr <;> simp [hr] at hr'
  have hpend : s.pending = [] := by rcases hr with hr | hr <;> simp [State.pending, hr]
  obtain ⟨-, rfl⟩ := h.drained hno
  rw [← h.data, hpend, List.append_nil, List.append_nil, List.length_append]

theorem progress_step {cap : Nat} {calls past : List HostCall} {s s' : State} {rest : List Word_t} (hf : Flow s rest)
    (h : Progress cap calls s past) (hs : Step cap s s') : ∃ past', Progress cap calls s' past' := by
  cases hs with
  | @execute prog todo hh ht =>
    refine ⟨past, ?_, h.sent, h.received, by simp, h.room, h.bounded, by simp⟩
    have hc := h.calls
    simp only [State.current, hh, ht] at hc
    exact hc
  | @join prog hh hr =>
    refine ⟨past, ?_, h.sent, h.received, by simp, h.room, h.bounded, fun prog' _ => ?_⟩
    · have hc := h.calls
      simp only [State.current, hh] at hc
      exact hc
    · have hl := length_of_drained hf hr
      have hp : s.popped = s.received := by simp only [State.popped, hh, List.append_nil]
      have := h.room
      have := h.received
      rw [hp, h.sent] at hl
      rw [produced]
      omega
  | @sendData prog hh =>
    refine ⟨past ++ [.execute prog], ?_, ?_, ?_, by simp, h.room, ?_, by simp⟩
    · have hc := h.calls
      simp only [State.current, hh] at hc
      simpa [State.current] using hc
    · rw [programs_append, ← h.sent]
      rfl
    · rw [asked_append]
      exact h.received
    · exact bounded_snoc h.bounded fun _ _ => h.sending prog hh
  | @receiveData num_bytes todo hh ht =>
    refine ⟨past, ?_, h.sent, h.received, ?_, h.room, h.bounded, by simp⟩
    · have hc := h.calls
      simp only [State.current, hh, ht] at hc
      exact hc
    · rintro _ _ ⟨⟩
      exact Nat.zero_le _
  | @pop num_bytes dst_buf k hh hk hw hn =>
    refine ⟨past, ?_, h.sent, h.received, ?_, ?_, h.bounded, by simp⟩
    · have hc := h.calls
      simp only [State.current, hh] at hc
      exact hc
    · rintro _ _ ⟨⟩
      rw [List.length_append, List.length_take]
      omega
    · have := h.room
      rw [List.length_drop]
      omega
  | @popped num_bytes dst_buf hh hw =>
    refine ⟨past ++ [.receiveData num_bytes], ?_, ?_, ?_, by simp, h.room, ?_, by simp⟩
    · have hc := h.calls
      simp only [State.current, hh] at hc
      simpa [State.current] using hc
    · rw [programs_append, ← h.sent]
      exact (List.append_nil _).symm
    · have := h.popping num_bytes dst_buf hh
      have := h.received
      have ha : asked [.receiveData num_bytes] = num_bytes / 4 := by simp [asked]
      rw [asked_append, ha, List.length_append]
      omega
    · exact bounded_snoc h.bounded fun _ e => by cases e
  | recvNothing hr hh hz => exact ⟨past, h.calls, h.sent, h.received, h.popping, h.room, h.bounded, h.sending⟩
  | recv hr hh hz => exact ⟨past, h.calls, h.sent, h.received, h.popping, h.room, h.bounded, h.sending⟩
  | @push recv_buffer recv_count k hr hk hw hn =>
    refine ⟨past, h.calls, h.sent, h.received, h.popping, ?_, h.bounded, h.sending⟩
    rw [List.length_append, List.length_take]
    omega
  | pushed hr => exact ⟨past, h.calls, h.sent, h.received, h.popping, h.room, h.bounded, h.sending⟩

theorem inv_of_reach {cap : Nat} {calls : List HostCall} {s : State} (h : Reach cap calls s) :
    (∃ rest, Flow s rest) ∧ ∃ past, Progress cap calls s past := by
  refine Transition.inv (fun s => (∃ rest, Flow s rest) ∧ ∃ past, Progress cap calls s past) ?_
    ⟨⟨[], flow_init calls⟩, [], progress_init cap calls⟩ h
  rintro s s' ⟨⟨rest, hf⟩, past, hp⟩ hs
  exact ⟨flow_step hf hs, progress_step hf hp hs⟩

/-! ## What `receiveData` delivers -/

/-- The words `receiveData` returned are the first data words, in program
order; each word the board was sent to make is popped, in the ring buffer, with
the receiver or still to come; and the receiver goes on exactly until it has
the last program's marker. -/
structure Delivers (calls : List HostCall) (s : State) : Prop where
  in_order : s.received <+: (programs calls).flatMap Readback.data
  sent : s.sent <+: programs calls
  complete : ∃ rest, s.popped ++ s.ring ++ s.pending ++ rest = s.sent.flatMap Readback.data ∧
    (s.Streaming → ∃ prog, s.sent.getLast? = some prog ∧ s.board = rest ++ prog.marker) ∧
    (¬ s.Streaming → s.board = [] ∧ rest = [])

theorem readback_exact {cap : Nat} {calls : List HostCall} {s : State} (h : Reach cap calls s) : Delivers calls s := by
  obtain ⟨⟨rest, hf⟩, past, hp⟩ := inv_of_reach h
  have hsent : s.sent <+: programs calls := by
    rw [hp.sent, hp.calls, programs_append]
    exact List.prefix_append _ _
  refine ⟨?_, hsent, rest, hf.data, fun hs => ?_, hf.drained⟩
  · have hdata : s.received <+: s.sent.flatMap Readback.data := by
      rw [← hf.data, State.popped]
      simp only [List.append_assoc]
      exact List.prefix_append _ _
    obtain ⟨later, hlater⟩ := hsent
    apply hdata.trans
    rw [← hlater, List.flatMap_append]
    exact List.prefix_append _ _
  · obtain ⟨prog, hl, hb, -⟩ := hf.streaming hs
    exact ⟨prog, hl, hb⟩

/-- One READ of a line of ones. -/
def lineOfOnes : Readback :=
  { reads := 1, data := List.replicate 16 1, marker := List.replicate 8 0, data_length := rfl, marker_length := rfl }

/-- A program without READs: its marker is all there is. -/
def nothingRead : Readback :=
  { reads := 0, data := [], marker := List.replicate 8 0, data_length := rfl, marker_length := rfl }

/-- The line behind a program without READs, received in one call. -/
theorem readback_lineOfOnes : ∃ s, Reach 16 [.execute nothingRead, .execute lineOfOnes, .receiveData 64] s ∧
    s.received = List.replicate 16 1 ∧ Delivers [.execute nothingRead, .execute lineOfOnes, .receiveData 64] s := by
  have h1 : Reach 16 [.execute nothingRead, .execute lineOfOnes, .receiveData 64] _ :=
    .tail (.tail (.tail .refl (.execute rfl rfl)) (.join rfl (.inl rfl))) (.sendData rfl)
  -- the marker of the first program ends its receiver
  have h2 := (h1.tail (.recv rfl (by simp) (by decide))).tail (.pushed rfl)
  have h3 := ((h2.tail (.execute rfl rfl)).tail (.join rfl (.inr rfl))).tail (.sendData rfl)
  have h4 := h3.tail (.recv rfl (by simp) (by decide))
  have h5 := h4.tail (.push (k := 16) rfl (by decide) (by decide) (by decide))
  have h6 := h5.tail (.receiveData rfl rfl)
  have h7 := h6.tail (.pop (k := 16) rfl (by decide) (by decide) (by decide))
  have h8 := h7.tail (.popped rfl (by decide))
  exact ⟨_, h8, by decide, readback_exact h8⟩

/-! ## When the two threads wait for each other -/

/-- `execute` waits for the receiver, and the receiver for room. -/
def Stuck (cap : Nat) (s : State) : Prop :=
  ∃ prog recv_buffer recv_count, s.host = .joining prog ∧ s.receiver = some (.pushing recv_buffer recv_count) ∧
    recv_buffer ≠ [] ∧ cap ≤ s.ring.length

def Finished (s : State) : Prop := s.host = .idle ∧ s.todo = []

/-- No `receiveData` asks for words that the programs before it have not made,
or that were handed out already. -/
def WellBehaved (calls : List HostCall) : Prop :=
  ∀ pre num_bytes post, calls = pre ++ .receiveData num_bytes :: post → asked pre + num_bytes / 4 ≤ produced pre

section
variable {cap : Nat} {calls : List HostCall} {s : State}

theorem receiving_step (hr : s.receiver = some .receiving) (hh : ∀ prog, s.host ≠ .sending prog) :
    ∃ s', Step cap s s' := by
  by_cases hz : (recvData bytes_to_recv s.board).2 = 0
  · exact ⟨_, .recvNothing hr hh hz⟩
  · exact ⟨_, .recv hr hh hz⟩

theorem pushing_step {recv_buffer : List Word_t} {recv_count : Nat}
    (hr : s.receiver = some (.pushing recv_buffer recv_count)) (h : recv_buffer = [] ∨ s.ring.length < cap) :
    ∃ s', Step cap s s' := by
  cases recv_buffer with
  | nil => exact ⟨_, .pushed hr⟩
  | cons w ws =>
    have hroom := h.resolve_left (List.cons_ne_nil _ _)
    exact ⟨_, .push hr Nat.one_pos (Nat.succ_le_succ (Nat.zero_le _)) hroom⟩

/-- Nothing but a full ring buffer under a waiting `execute` stops the threads
early. -/
theorem step_or_stuck (hcap : 0 < cap) (hw : WellBehaved calls) (h : Reach cap calls s) :
    (∃ s', Step cap s s') ∨ Finished s ∨ Stuck cap s := by
  obtain ⟨⟨rest, hf⟩, past, hp⟩ := inv_of_reach h
  have hc := hp.calls
  cases hh : s.host with
  | idle =>
    cases ht : s.todo with
    | nil => exact .inr (.inl ⟨hh, ht⟩)
    | cons c todo =>
      cases c with
      | execute prog => exact .inl ⟨_, .execute hh ht⟩
      | receiveData num_bytes => exact .inl ⟨_, .receiveData hh ht⟩
  | joining prog =>
    cases hr : s.receiver with
    | none => exact .inl ⟨_, .join hh (.inl hr)⟩
    | some r =>
      cases r with
      | receiving => exact .inl (receiving_step hr (by simp [hh]))
      | done => exact .inl ⟨_, .join hh (.inr hr)⟩
      | pushing recv_buffer recv_count =>
        by_cases hfree : recv_buffer = [] ∨ s.ring.length < cap
        · exact .inl (pushing_step hr hfree)
        · rw [not_or, not_lt] at hfree
          exact .inr (.inr ⟨prog, recv_buffer, recv_count, hh, hr, hfree.1, hfree.2⟩)
  | sending prog => exact .inl ⟨_, .sendData hh⟩
  | popping num_bytes dst_buf =>
    left
    by_cases hfull : num_bytes / 4 ≤ dst_buf.length
    · exact ⟨_, .popped hh hfull⟩
    · cases hring : s.ring with
      | cons w ws => exact ⟨_, .pop hh Nat.one_pos (by omega) (by rw [hring]; exact Nat.succ_le_succ (Nat.zero_le _))⟩
      | nil =>
        -- the words asked for were sent, so the receiver still has some
        have hmore : ¬ (s.receiver = none ∨ s.receiver = some .done) := by
          intro hr
          have hl := length_of_drained hf hr
          simp only [State.current, hh] at hc
          have hask := hw past num_bytes s.todo hc
          have hpop : s.popped = s.received ++ dst_buf := by simp only [State.popped, hh]
          rw [hpop, hring, List.length_append, List.length_nil, hp.received, hp.sent] at hl
          rw [produced] at hask
          omega
        cases hr : s.receiver with
        | none => exact absurd (.inl hr) hmore
        | some r =>
          cases r with
          | receiving => exact receiving_step hr (by simp [hh])
          | done => exact absurd (.inr hr) hmore
          | pushing recv_buffer recv_count => exact pushing_step hr (.inr (by rw [hring]; exact hcap))

/-- A stuck `execute` came too early. -/
theorem not_bounded_of_stuck (h : Reach cap calls s) (hs : Stuck cap s) : ¬ Bounded cap calls := by
  intro hb
  obtain ⟨⟨rest, hf⟩, past, hp⟩ := inv_of_reach h
  obtain ⟨prog, recv_buffer, recv_count, hh, hr, hne, hfull⟩ := hs
  have hc := hp.calls
  simp only [State.current, hh] at hc
  have hle := hb past prog s.todo hc
  have hd := congrArg List.length hf.data
  have hpop : s.popped = s.received := by simp only [State.popped, hh, List.append_nil]
  have hpend : s.pending = recv_buffer := by simp only [State.pending, hr]
  have hpos := List.length_pos_of_ne_nil hne
  rw [hpop, hpend, hp.sent, List.length_append, List.length_append, List.length_append, hp.received] at hd
  rw [produced] at hle
  omega

end

/-! ### Every run ends -/

/-- How many steps a call can take. -/
def HostCall.work : HostCall → Nat
  | .execute prog => 3 * (prog.data.length + 8) + 4
  | .receiveData num_bytes => num_bytes / 4 + 2

def Host.work : Host → Nat
  | .idle => 0
  | .joining prog => 3 * (prog.data.length + 8) + 3
  | .sending prog => 3 * (prog.data.length + 8) + 1
  | .popping num_bytes dst_buf => num_bytes / 4 - dst_buf.length + 1

def Receiver.work : Option Receiver → Nat
  | none => 0
  | some .receiving => 1
  | some (.pushing recv_buffer _) => recv_buffer.length + 2
  | some .done => 0

def State.work (s : State) : Nat :=
  (s.todo.map HostCall.work).sum + s.host.work + 3 * s.board.length + Receiver.work s.receiver

theorem work_step (cap : Nat) (s s' : State) (h : Step cap s s') : s'.work < s.work := by
  unfold State.work
  cases h with
  | execute hh ht =>
    simp only [hh, ht, List.map_cons, List.sum_cons, HostCall.work, Host.work]
    omega
  | join hh hr =>
    rcases hr with hr | hr <;>
    · simp only [hh, hr, Host.work, Receiver.work]
      omega
  | @sendData prog hh =>
    have := prog.marker_length
    simp only [hh, Host.work, List.length_append]
    omega
  | receiveData hh ht =>
    simp only [hh, ht, List.map_cons, List.sum_cons, HostCall.work, Host.work, List.length_nil]
    omega
  | pop hh hk hw hn =>
    simp only [hh, Host.work, List.length_append, List.length_take]
    omega
  | popped hh hw =>
    simp only [hh, Host.work]
    omega
  | recvNothing hr hh hz =>
    simp only [hr, Receiver.work]
    omega
  | recv hr hh hz =>
    simp only [recvData, List.length_take] at hz
    simp only [hr, Receiver.work, recvData, List.length_take, List.length_drop]
    omega
  | push hr hk hw hn =>
    simp only [hr, Receiver.work, List.length_drop]
    omega
  | @pushed recv_count hr =>
    by_cases he : recv_count = bytes_to_recv <;>
    · simp [hr, Receiver.work, he]

/-- Where some `execute` comes too early, every run that goes on as long as it
can gets stuck. -/
theorem exists_stuck {cap : Nat} {calls : List HostCall} (hcap : 0 < cap) (hw : WellBehaved calls)
    (hb : ¬ Bounded cap calls) : ∃ s, Reach cap calls s ∧ Stuck cap s := by
  obtain ⟨s, hs, hlast⟩ := Transition.exists_last State.work (work_step cap) { todo := calls }
  refine ⟨s, hs, ?_⟩
  rcases step_or_stuck hcap hw hs with ⟨s', hs'⟩ | ⟨hh, ht⟩ | hst
  · exact absurd hs' (hlast s')
  · obtain ⟨-, past, hp⟩ := inv_of_reach hs
    have hc := hp.calls
    simp only [State.current, hh, ht, List.append_nil] at hc
    exact absurd (hc ▸ hp.bounded) hb
  · exact hst

/-- The threads get stuck exactly when some `execute` comes while more words
than the ring buffer takes are not handed out, and by waiting for each other. -/
theorem stuck_iff_overfull {cap : Nat} (hcap : 0 < cap) (calls : List HostCall) (hw : WellBehaved calls) :
    ((∃ s, Reach cap calls s ∧ Stuck cap s) ↔ ¬ Bounded cap calls) ∧
    ∀ s, Reach cap calls s → (∃ s', Step cap s s') ∨ Finished s ∨ Stuck cap s :=
  ⟨⟨fun ⟨_, hr, hs⟩ => not_bounded_of_stuck hr hs, exists_stuck hcap hw⟩, fun _ hr => step_or_stuck hcap hw hr⟩

/-- With the line received before the second program, nothing gets stuck. -/
theorem lineOfOnes_not_stuck : ¬ ∃ s, Reach 16 [.execute lineOfOnes, .receiveData 64, .execute lineOfOnes] s ∧
    Stuck 16 s := by
  have hw : WellBehaved [.execute lineOfOnes, .receiveData 64, .execute lineOfOnes] := by
    intro pre num_bytes post e
    match pre, e with
    | [_], e =>
      cases e
      decide
    | [_, _, _], e => cases e
    | _ :: _ :: _ :: _ :: _, e => cases e
  rw [(stuck_iff_overfull (by decide) _ hw).1, not_not]
  intro pre prog post e
  match pre, e with
  | [], _ => decide
  | [_, _], e =>
    cases e
    decide
  | _ :: _ :: _ :: _ :: _, e => cases e

/-- `n` READs of zeros. -/
def zeros (n : Nat) : Readback :=
  { reads := n, data := List.replicate (16 * n) 0, marker := List.replicate 8 0, data_length := List.length_replicate,
    marker_length := rfl }

theorem produced_zeros (n : Nat) : produced [.execute (zeros n)] = 16 * n := by
  simp [produced, programs, zeros]

/-- 131073 READs, sixteen words more than the ring buffer takes, then another
program. -/
theorem second_execute_waits : ¬ ∀ calls, WellBehaved calls → ∀ s, Reach recv_ringbuffer_size calls s →
    ¬ Stuck recv_ringbuffer_size s := by
  intro h
  have hw : WellBehaved [.execute (zeros 131073), .execute (zeros 0)] := by
    intro pre num_bytes post e
    match pre, e with
    | [_, _], e => cases e
    | _ :: _ :: _ :: _, e => cases e
  have hb : ¬ Bounded recv_ringbuffer_size [.execute (zeros 131073), .execute (zeros 0)] := by
    intro hb
    have hle := hb [.execute (zeros 131073)] (zeros 0) [] rfl
    have hask : asked [.execute (zeros 131073)] = 0 := rfl
    rw [produced_zeros, hask, recv_ringbuffer_size] at hle
    omega
  obtain ⟨s, hr, hs⟩ := exists_stuck (by decide) hw hb
  exact h _ hw s hr hs

end Platform

end DRAMBender
