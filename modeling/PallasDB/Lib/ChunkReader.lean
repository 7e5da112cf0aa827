import Mathlib.Data.List.Basic

/-! # Readers with short counts

A reader delivers its input in pieces of its own choosing: a call returns part of what is asked for and
more calls return the rest. `readFull` repeats the call until the buffer is full or the input ends, so
what it returns depends on the input alone and not on the pieces.
-/

namespace ChunkReader

variable {α : Type*}

/-- What is left to deliver. A call returns no more than the first piece; a piece may be empty. -/
abbrev Reader (α : Type*) := List (List α)

inductive ReadError where
  | eof
  | unexpectedEOF
deriving DecidableEq, Repr

/-- One call with a buffer of the given size; there is nothing to return at the end of the input. -/
def read (size : ℕ) : Reader α → Option (List α) × Reader α
  | [] => (none, [])
  | chunk :: rest => (some (chunk.take size), if size < chunk.length then chunk.drop size :: rest else rest)

/-- The loop of `readFull`: calls for the missing elements until none is missing or the input ends. -/
def fill (missing : ℕ) : Reader α → List α × Reader α
  | [] => ([], [])
  | chunk :: rest =>
      if missing = 0 then ([], chunk :: rest)
      else if missing < chunk.length then (chunk.take missing, chunk.drop missing :: rest)
      else (chunk ++ (fill (missing - chunk.length) rest).1, (fill (missing - chunk.length) rest).2)

/-- `io.ReadFull`. -/
def readFull (size : ℕ) (reader : Reader α) : Except ReadError (List α × Reader α) :=
  let (data, rest) := fill size reader
  if data.length = size then .ok (data, rest) else if data = [] then .error .eof else .error .unexpectedEOF

/-- The loop makes one call per round. -/
theorem fill_read {missing : ℕ} (wanted : 0 < missing) (reader : Reader α) :
    fill missing reader = match read missing reader with
      | (none, rest) => ([], rest)
      | (some data, rest) => (data ++ (fill (missing - data.length) rest).1,
        (fill (missing - data.length) rest).2) := by
  cases reader with
  | nil => rfl
  | cons chunk rest =>
    rw [fill, if_neg (Nat.ne_of_gt wanted)]
    by_cases long : missing < chunk.length
    · simp [read, long, Nat.min_eq_left (Nat.le_of_lt long), fill]
    · have short : chunk.take missing = chunk := List.take_of_length_le (Nat.le_of_not_lt long)
      simp [read, long, short]

theorem fill_eq (missing : ℕ) (reader : Reader α) : (fill missing reader).1 = reader.flatten.take missing ∧
      (fill missing reader).2.flatten = reader.flatten.drop missing := by
  induction reader generalizing missing with
  | nil => simp [fill]
  | cons chunk rest ih =>
    rw [fill, List.flatten_cons]
    split
    · next full => simp [full]
    · split
      · next long =>
        have inside := Nat.le_of_lt long
        simp [List.take_append_of_le_length inside, List.drop_append_of_le_length inside]
      · next short =>
        obtain ⟨taken, left⟩ := ih (missing - chunk.length)
        have whole := Nat.le_of_not_lt short
        rw [taken, left, List.take_append, List.drop_append, List.take_of_length_le whole,
          List.drop_eq_nil_of_le whole, List.nil_append]
        exact ⟨rfl, rfl⟩

/-- A full buffer holds the front of the input. -/
theorem readFull_ok {size : ℕ} {reader : Reader α} (enough : size ≤ reader.flatten.length) :
    ∃ rest, readFull size reader = .ok (reader.flatten.take size, rest) ∧ rest.flatten = reader.flatten.drop size := by
  obtain ⟨taken, left⟩ := fill_eq size reader
  refine ⟨(fill size reader).2, ?_, left⟩
  have full : (reader.flatten.take size).length = size := by rw [List.length_take, Nat.min_eq_left enough]
  simp only [readFull, taken, full, if_true]

/-- Input that does not fill the buffer ends the input. -/
theorem readFull_short {size : ℕ} {reader : Reader α} (short : reader.flatten.length < size) :
    ∃ err, readFull size reader = .error err := by
  have part : (fill size reader).1.length ≠ size := by
    rw [(fill_eq size reader).1, List.length_take]
    omega
  simp only [readFull, part, if_false]
  split
  · exact ⟨_, rfl⟩
  · exact ⟨_, rfl⟩

end ChunkReader
