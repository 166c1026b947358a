import Mathlib.Data.List.Infix
import Mathlib.Tactic.Common

/-!
# The bounded line reader

The runtime reads the output of a child process line by line and gives up on a line that grows past
a cap. The reader works on whatever its buffer holds at the moment, so the same bytes may reach it
in many ways.

* `Reader` — the buffers a `BufRead` hands out, one after the other, errors among them.
* `readBoundedLine` — one call; `calls` — the outcomes of the first `n` calls.
* `frame`, `frames` — the same two on the bytes alone, with no buffers: what a line reader with a
  cap is for.
* `LineCut`, `lineCuts` — how each complete line of a stream lies in the buffers, and
  `LineCut.Fits`, the cuts on which the two branches of the code agree on what is too long.
* `readBoundedLine_ofChunks` — what one call does, by the cut of the line it meets.
* `calls_eq_frames_iff` — the calls give the framing of the bytes exactly when every cut fits.
* `forall_splits_iff` — and for a stream that may be split in any way, exactly when no line has the
  length of the cap or is longer by less than the cap.

The sizes are those of slices in memory, so `cap + 1` is a `usize` here.
-/

namespace AuraLauncher.Runtime

/-- A run of bytes, as a buffer or a stream holds it. -/
abbrev Bytes := List UInt8

/-- The byte `\n`. -/
def newline : UInt8 := 10

/-! ## Decoding a line -/

/-- Whether a byte goes on with a sequence begun before. -/
def isContinuation (b : UInt8) : Bool := b &&& 0xc0 == 0x80

/-- Whether `second` may follow the first byte `b` of a sequence of three or four bytes. -/
def secondFits (b second : UInt8) : Bool :=
  if b == 0xe0 then 0xa0 ≤ second && second ≤ 0xbf
  else if b == 0xed then 0x80 ≤ second && second ≤ 0x9f
  else if b == 0xf0 then 0x90 ≤ second && second ≤ 0xbf
  else if b == 0xf4 then 0x80 ≤ second && second ≤ 0x8f
  else isContinuation second

/-- The low six bits of a continuation byte. -/
def payload (b : UInt8) : ℕ := (b &&& 0x3f).toNat

/-- What stands in the text for bytes that are not UTF-8. -/
def replacement : Char := Char.ofNat 0xfffd

/-- The character that a byte begins, and how many of the bytes after it belong to it. A sequence
that breaks off stands for one replacement character.
Source: `String::from_utf8_lossy`. -/
def utf8Next (b : UInt8) (rest : Bytes) : Char × ℕ :=
  let at? i := rest.getD i 0
  if b < 0x80 then (Char.ofNat b.toNat, 0)
  else if b < 0xc2 || 0xf4 < b then (replacement, 0)
  else if b < 0xe0 then
    if isContinuation (at? 0) then
      (Char.ofNat ((b &&& 0x1f).toNat * 64 + payload (at? 0)), 1)
    else (replacement, 0)
  else if !secondFits b (at? 0) then (replacement, 0)
  else if !isContinuation (at? 1) then (replacement, 1)
  else if b < 0xf0 then
    (Char.ofNat (((b &&& 0xf).toNat * 64 + payload (at? 0)) * 64 + payload (at? 1)), 2)
  else if !isContinuation (at? 2) then (replacement, 2)
  else
    (Char.ofNat ((((b &&& 7).toNat * 64 + payload (at? 0)) * 64 + payload (at? 1)) * 64 +
      payload (at? 2)), 3)

/-- The characters of a text, with `skip` bytes still belonging to the last one. -/
def lossyChars : ℕ → Bytes → List Char
  | _, [] => []
  | skip + 1, _ :: bs => lossyChars skip bs
  | 0, b :: bs => (utf8Next b bs).1 :: lossyChars (utf8Next b bs).2 bs

/-- Source: `String::from_utf8_lossy`. -/
def fromUtf8Lossy (bs : Bytes) : String := String.ofList (lossyChars 0 bs)

example : fromUtf8Lossy [0x61, 0xe2, 0x82, 0xac, 0xe2, 0x82, 0x62] = "a€\uFFFDb" := by decide

/-! ## The reader -/

/-- Outcome of one bounded line read. Source: `io.rs`, `LineOutcome`. -/
inductive LineOutcome where
  /-- A complete line, newline stripped. -/
  | line (text : String)
  /-- The line exceeded the cap, or the input ended in its middle. -/
  | limitExceeded
  /-- Clean end of input with nothing buffered. -/
  | eof
  deriving DecidableEq, Repr

/-- What a `BufRead` hands out: a buffer, or the error of the read that should have filled it. An
empty buffer, like no buffer at all, is the end of the input. -/
abbrev Reader (ε : Type) := List (Except ε Bytes)

variable {ε : Type}

/-- A reader without errors. -/
def Reader.ofChunks (chunks : List Bytes) : Reader ε := chunks.map .ok

/-- Takes `n` bytes from the current buffer. Source: `BufRead::consume`. -/
def Reader.consume (n : ℕ) : Reader ε → Reader ε
  | .ok available :: rest =>
      if n < available.length then .ok (available.drop n) :: rest else rest
  | r => r

/-- The action `LimitAndSkip(n)`: draining what is left of the oversized line.
Source: `io.rs`, `read_bounded_line`. -/
def limitAndSkip (n : ℕ) : ℕ → Reader ε → Except ε LineOutcome × Reader ε
  | _, [] => (.ok .limitExceeded, [])
  | skipped, .error e :: rest =>
      if skipped < n then (.error e, rest) else (.ok .limitExceeded, .error e :: rest)
  | skipped, .ok available :: rest =>
      if skipped < n then
        if available.isEmpty then (.ok .limitExceeded, rest)
        else
          let take := min available.length (n - skipped)
          if take < available.length then
            -- then `skipped + take = n`, and the buffer stays in use
            (.ok .limitExceeded, Reader.consume take (.ok available :: rest))
          else limitAndSkip n (skipped + take) rest
      else (.ok .limitExceeded, .ok available :: rest)

/-- The loop of `read_bounded_line`, one buffer a pass: a pass that goes on consumes the whole
buffer. Source: `io.rs`, `read_bounded_line`. -/
def readLoop (cap : ℕ) : Bytes → Bool → Reader ε → Except ε LineOutcome × Reader ε
  | buf, oversized, [] =>
      if oversized || !buf.isEmpty then (.ok .limitExceeded, []) else (.ok .eof, [])
  | _, _, .error e :: rest => (.error e, rest)
  | buf, oversized, .ok available :: rest =>
      if available.isEmpty then
        if oversized || !buf.isEmpty then (.ok .limitExceeded, rest) else (.ok .eof, rest)
      else
        match available.idxOf? newline with
        | some pos =>
            if oversized || cap < pos + 1 then
              limitAndSkip (pos + 1) 0 (.ok available :: rest)
            else
              (.ok (.line (fromUtf8Lossy (buf ++ available.take pos))),
                Reader.consume (pos + 1) (.ok available :: rest))
        | none =>
            let take := min available.length (cap - buf.length + 1)
            let buf' := buf ++ available.take take
            if cap < buf'.length then readLoop cap [] true rest
            else readLoop cap buf' oversized rest

/-- Read one `\n`-terminated line. Source: `io.rs`, `read_bounded_line`. -/
def readBoundedLine (cap : ℕ) (reader : Reader ε) : Except ε LineOutcome × Reader ε :=
  readLoop cap [] false reader

/-- The outcomes of the first `n` calls on a reader. -/
def calls (cap : ℕ) : ℕ → Reader ε → List (Except ε LineOutcome)
  | 0, _ => []
  | n + 1, r => (readBoundedLine cap r).1 :: calls cap n (readBoundedLine cap r).2

/-! ## Framing bytes -/

/-- One read of a line on the bytes alone: a complete line is returned when it has at most `cap`
bytes, and skipped as a whole when it is longer; bytes without a newline end in the middle of a
line. -/
def frame (cap : ℕ) (bytes : Bytes) : LineOutcome × Bytes :=
  match bytes.idxOf? newline with
  | some pos =>
      (if pos ≤ cap then .line (fromUtf8Lossy (bytes.take pos)) else .limitExceeded,
        bytes.drop (pos + 1))
  | none => (if bytes.isEmpty then .eof else .limitExceeded, [])

/-- The first `n` outcomes of framing a stream. -/
def frames (cap : ℕ) : ℕ → Bytes → List LineOutcome
  | 0, _ => []
  | n + 1, bytes => (frame cap bytes).1 :: frames cap n (frame cap bytes).2

/-- The buffers are a way to split the bytes. -/
structure Splits (chunks : List Bytes) (bytes : Bytes) : Prop where
  /-- Together they are the bytes. -/
  flatten : chunks.flatten = bytes
  /-- None is empty. -/
  nonempty : ∀ chunk ∈ chunks, chunk ≠ []

/-- The complete lines of a stream, with `opened` bytes of the first line seen. -/
def linesFrom : Bytes → Bytes → List Bytes
  | _, [] => []
  | opened, b :: bs =>
      if b = newline then opened :: linesFrom [] bs else linesFrom (opened ++ [b]) bs

/-- The complete lines of a stream. -/
def lines (bytes : Bytes) : List Bytes := linesFrom [] bytes

/-! ## How lines lie in the buffers -/

/-- How the bytes of a complete line lie in the buffers. -/
structure LineCut where
  /-- How many came in buffers before the one with the newline. -/
  before : ℕ
  /-- How many stand before the newline in its own buffer. -/
  here : ℕ
  deriving DecidableEq, Repr

/-- The cuts of the lines whose newline is in this buffer, with `before` and `here` bytes of the
current line seen. -/
def chunkCuts : ℕ → ℕ → Bytes → List LineCut
  | _, _, [] => []
  | before, here, b :: bs =>
      if b = newline then ⟨before, here⟩ :: chunkCuts 0 0 bs
      else chunkCuts before (here + 1) bs

/-- How many bytes the line has that is open after a buffer, if it had `n` before it. -/
def openBytes : ℕ → Bytes → ℕ
  | n, [] => n
  | n, b :: bs => if b = newline then openBytes 0 bs else openBytes (n + 1) bs

/-- The cuts of the complete lines of a stream, `before` bytes into a line. -/
def lineCuts : ℕ → List Bytes → List LineCut
  | _, [] => []
  | before, chunk :: rest =>
      chunkCuts before 0 chunk ++ lineCuts (openBytes before chunk) rest

/-- The cut is neither that of a line of `cap` bytes that lies in one buffer, nor that of a longer
line of which `cap` bytes at most came before the last buffer and fewer than `cap` in it. -/
def LineCut.Fits (cap : ℕ) (c : LineCut) : Prop :=
  ¬ (c.before = 0 ∧ c.here = cap) ∧
    ¬ (c.before ≤ cap ∧ c.here < cap ∧ cap < c.before + c.here)

instance (cap : ℕ) (c : LineCut) : Decidable (c.Fits cap) :=
  inferInstanceAs (Decidable (_ ∧ _))

/-- The cuts that fit are those on which the tests of the code tell the line's length. -/
theorem LineCut.fits_iff {cap : ℕ} {c : LineCut} :
    c.Fits cap ↔ (c.before + c.here ≤ cap ↔ c.before ≤ cap ∧ c.here < cap) := by
  unfold LineCut.Fits
  omega

/-! ## What one call does -/

theorem idxOf?_newline_append {line after : Bytes} (h : newline ∉ line) :
    (line ++ newline :: after).idxOf? newline = some line.length := by
  induction line with
  | nil => simp [List.idxOf?_cons]
  | cons b line ih =>
      obtain ⟨hb, hline⟩ := List.ne_and_not_mem_of_not_mem_cons h
      simp [List.idxOf?_cons, ih hline, hb.symm]

theorem chunkCuts_append {line after : Bytes} (h : newline ∉ line) (before here : ℕ) :
    chunkCuts before here (line ++ newline :: after) =
      ⟨before, here + line.length⟩ :: chunkCuts 0 0 after := by
  induction line generalizing here with
  | nil => simp [chunkCuts]
  | cons b line ih =>
      obtain ⟨hb, hline⟩ := List.ne_and_not_mem_of_not_mem_cons h
      simp [chunkCuts, ih hline, hb.symm, Nat.add_assoc, Nat.add_comm 1]

theorem chunkCuts_of_notMem {line : Bytes} (h : newline ∉ line) (before here : ℕ) :
    chunkCuts before here line = [] := by
  induction line generalizing here with
  | nil => rfl
  | cons b line ih =>
      obtain ⟨hb, hline⟩ := List.ne_and_not_mem_of_not_mem_cons h
      simp [chunkCuts, ih hline, hb.symm]

theorem openBytes_append {line after : Bytes} (h : newline ∉ line) (n : ℕ) :
    openBytes n (line ++ newline :: after) = openBytes 0 after := by
  induction line generalizing n with
  | nil => simp [openBytes]
  | cons b line ih =>
      obtain ⟨hb, hline⟩ := List.ne_and_not_mem_of_not_mem_cons h
      simp [openBytes, ih hline, hb.symm]

theorem openBytes_of_notMem {line : Bytes} (h : newline ∉ line) (n : ℕ) :
    openBytes n line = n + line.length := by
  induction line generalizing n with
  | nil => rfl
  | cons b line ih =>
      obtain ⟨hb, hline⟩ := List.ne_and_not_mem_of_not_mem_cons h
      simp [openBytes, ih hline, hb.symm, Nat.add_assoc, Nat.add_comm 1]

theorem lineCuts_of_notMem {chunks : List Bytes} (h : newline ∉ chunks.flatten) (n : ℕ) :
    lineCuts n chunks = [] := by
  induction chunks generalizing n with
  | nil => rfl
  | cons chunk rest ih =>
      rw [List.flatten_cons, List.mem_append, not_or] at h
      rw [lineCuts, chunkCuts_of_notMem h.1, ih h.2, List.append_nil]

/-- The buffers left when `after` is what stays of the current one. -/
def leftover (after : Bytes) (rest : List Bytes) : List Bytes :=
  if after.isEmpty then rest else after :: rest

theorem leftover_flatten (after : Bytes) (rest : List Bytes) :
    (leftover after rest).flatten = after ++ rest.flatten := by
  unfold leftover
  cases after <;> rfl

theorem leftover_nonempty {after : Bytes} {rest : List Bytes} (h : ∀ c ∈ rest, c ≠ []) :
    ∀ c ∈ leftover after rest, c ≠ [] := by
  unfold leftover
  cases after with
  | nil => exact h
  | cons b after => simpa using h

theorem lineCuts_leftover (after : Bytes) (rest : List Bytes) :
    lineCuts 0 (leftover after rest) =
      chunkCuts 0 0 after ++ lineCuts (openBytes 0 after) rest := by
  unfold leftover
  cases after <;> rfl

/-- Consuming a line and its newline leaves what stands after them. -/
theorem consume_line (line after : Bytes) (rest : List Bytes) :
    Reader.consume (ε := ε) (line.length + 1)
        (.ok (line ++ newline :: after) :: Reader.ofChunks rest) =
      Reader.ofChunks (leftover after rest) := by
  cases after <;> simp [Reader.consume, leftover, Reader.ofChunks]

/-- Draining a line whose newline is in the buffer leaves what stands after it. -/
theorem limitAndSkip_line (line after : Bytes) (rest : List Bytes) :
    limitAndSkip (ε := ε) (line.length + 1) 0
        (.ok (line ++ newline :: after) :: Reader.ofChunks rest) =
      (.ok .limitExceeded, Reader.ofChunks (leftover after rest)) := by
  have htake : min (line ++ newline :: after).length (line.length + 1 - 0) = line.length + 1 := by
    simp
  have hstop : ∀ r : Reader ε, limitAndSkip (line.length + 1) (line.length + 1) r =
      (.ok .limitExceeded, r) := by
    intro r
    rcases r with _ | ⟨_ | _, r⟩ <;> simp [limitAndSkip]
  have hne : (line ++ newline :: after).isEmpty = false := by simp
  simp only [limitAndSkip, Nat.succ_pos, ↓reduceIte, hne, Bool.false_eq_true, htake, Nat.zero_add,
    hstop]
  split_ifs with hlt
  · exact congrArg _ (consume_line line after rest)
  · rw [← consume_line, Reader.consume, if_neg hlt]

/-- What the loop keeps of the bytes of the current line it has seen: all of them while there are
at most `cap`, and later only that there were more. -/
def Buffered (cap : ℕ) (seen buf : Bytes) (oversized : Bool) : Prop :=
  if oversized then cap < seen.length else buf = seen ∧ seen.length ≤ cap

theorem buffered_nil (cap : ℕ) : Buffered cap [] [] false := ⟨rfl, Nat.zero_le cap⟩

/-- A buffer without a newline is consumed as a whole. -/
theorem readLoop_of_notMem {cap : ℕ} {seen buf chunk : Bytes} {oversized : Bool}
    (hbuf : Buffered cap seen buf oversized) (hne : chunk ≠ []) (h : newline ∉ chunk)
    (rest : Reader ε) :
    ∃ buf' oversized', Buffered cap (seen ++ chunk) buf' oversized' ∧
      readLoop cap buf oversized (.ok chunk :: rest) = readLoop cap buf' oversized' rest := by
  have hidx : chunk.idxOf? newline = none := List.idxOf?_eq_none_iff.mpr h
  have hempty : chunk.isEmpty = false := by simpa using hne
  have hlen := List.length_take (i := min chunk.length (cap - buf.length + 1)) (l := chunk)
  rw [readLoop, hempty, hidx]
  simp only [Bool.false_eq_true, ↓reduceIte]
  cases oversized with
  | true =>
      have hlong : ∀ b, Buffered cap (seen ++ chunk) b true := by
        intro b
        have hseen : cap < seen.length := hbuf
        show cap < (seen ++ chunk).length
        rw [List.length_append]
        omega
      split_ifs
      · exact ⟨_, _, hlong _, rfl⟩
      · exact ⟨_, _, hlong _, rfl⟩
  | false =>
      obtain ⟨rfl, hseen⟩ : buf = seen ∧ seen.length ≤ cap := hbuf
      split_ifs with hlong
      · rw [List.length_append] at hlong
        refine ⟨_, _, ?_, rfl⟩
        show cap < (buf ++ chunk).length
        rw [List.length_append]
        omega
      · rw [List.length_append] at hlong
        refine ⟨_, _, ?_, rfl⟩
        rw [List.take_of_length_le (by omega)]
        exact ⟨rfl, by rw [List.length_append]; omega⟩

/-- The bytes end before the line does. -/
theorem readLoop_of_unterminated {cap : ℕ} {chunks : List Bytes}
    (hne : ∀ chunk ∈ chunks, chunk ≠ []) (h : newline ∉ chunks.flatten) {seen buf : Bytes}
    {oversized : Bool} (hbuf : Buffered cap seen buf oversized) :
    readLoop (ε := ε) cap buf oversized (.ofChunks chunks) =
      (.ok (if (seen ++ chunks.flatten).isEmpty then .eof else .limitExceeded), []) := by
  induction chunks generalizing seen buf oversized with
  | nil =>
      have hempty : (oversized || !buf.isEmpty) = !seen.isEmpty := by
        cases oversized with
        | true =>
            have hlong : cap < seen.length := hbuf
            cases seen <;> simp_all
        | false => rw [(show buf = seen from hbuf.1), Bool.false_or]
      rw [Reader.ofChunks, List.map_nil, readLoop, hempty]
      cases seen <;> rfl
  | cons chunk rest ih =>
      rw [List.flatten_cons, List.mem_append, not_or] at h
      obtain ⟨hchunk, hrest⟩ := List.forall_mem_cons.mp hne
      obtain ⟨buf', oversized', hbuf', heq⟩ :=
        readLoop_of_notMem (ε := ε) hbuf hchunk h.1 (.ofChunks rest)
      rw [Reader.ofChunks, List.map_cons, ← Reader.ofChunks, heq, ih hrest h.2 hbuf',
        List.flatten_cons, List.append_assoc]

/-- The buffer has the newline of the line. -/
theorem readLoop_line {cap : ℕ} {seen buf line after : Bytes} {oversized : Bool}
    (hbuf : Buffered cap seen buf oversized) (hline : newline ∉ line) (rest : List Bytes) :
    readLoop (ε := ε) cap buf oversized (.ok (line ++ newline :: after) :: Reader.ofChunks rest) =
      (.ok (if seen.length ≤ cap ∧ line.length < cap then
          .line (fromUtf8Lossy (seen ++ line)) else .limitExceeded),
        Reader.ofChunks (leftover after rest)) := by
  have hempty : (line ++ newline :: after).isEmpty = false := by simp
  have htest : (oversized || decide (cap < line.length + 1)) = true ↔
      ¬ (seen.length ≤ cap ∧ line.length < cap) := by
    cases oversized with
    | true =>
        have hlong : cap < seen.length := hbuf
        simp only [Bool.true_or, true_iff]
        omega
    | false =>
        have hshort : seen.length ≤ cap := hbuf.2
        rw [Bool.false_or, decide_eq_true_iff]
        omega
  rw [readLoop, idxOf?_newline_append hline, hempty]
  simp only [Bool.false_eq_true, ↓reduceIte, htest]
  by_cases hok : seen.length ≤ cap ∧ line.length < cap
  · cases oversized with
    | true => exact absurd hok.1 (Nat.not_le.mpr hbuf)
    | false =>
        obtain rfl : buf = seen := hbuf.1
        rw [if_neg (not_not.mpr hok), if_pos hok, List.take_left', consume_line]
        rfl
  · rw [if_pos hok, if_neg hok]
    exact limitAndSkip_line line after rest

/-- What a call makes of a complete line, `n` bytes into it: the cut of the line decides whether it
is returned, and what stands after it is left to the next call. -/
def ReadsLine (cap n : ℕ) (bytes : Bytes) (chunks : List Bytes)
    (result : Except ε LineOutcome × Reader ε) : Prop :=
  ∃ line cut rest, bytes = line ++ newline :: rest.flatten ∧ newline ∉ line ∧
    (∀ chunk ∈ rest, chunk ≠ []) ∧ lineCuts n chunks = cut :: lineCuts 0 rest ∧
    cut.before + cut.here = line.length ∧
    result =
      (.ok (if cut.before ≤ cap ∧ cut.here < cap then .line (fromUtf8Lossy line)
        else .limitExceeded), Reader.ofChunks rest)

theorem readLoop_of_mem {cap : ℕ} {chunks : List Bytes} (hne : ∀ chunk ∈ chunks, chunk ≠ [])
    (h : newline ∈ chunks.flatten) {seen buf : Bytes} {oversized : Bool} (hseen : newline ∉ seen)
    (hbuf : Buffered cap seen buf oversized) :
    ReadsLine (ε := ε) cap seen.length (seen ++ chunks.flatten) chunks
      (readLoop cap buf oversized (.ofChunks chunks)) := by
  induction chunks generalizing seen buf oversized with
  | nil => exact absurd h List.not_mem_nil
  | cons chunk rest ih =>
      obtain ⟨hchunk, hrest⟩ := List.forall_mem_cons.mp hne
      rw [Reader.ofChunks, List.map_cons, ← Reader.ofChunks]
      by_cases hmem : newline ∈ chunk
      · obtain ⟨line, after, rfl, hline⟩ := List.eq_append_cons_of_mem hmem
        refine ⟨seen ++ line, ⟨seen.length, line.length⟩, leftover after rest, ?_, ?_,
          leftover_nonempty hrest, ?_, List.length_append.symm, readLoop_line hbuf hline rest⟩
        · simp [leftover_flatten]
        · simp [hseen, hline]
        · rw [lineCuts, chunkCuts_append hline, openBytes_append hline, Nat.zero_add,
            List.cons_append, lineCuts_leftover]
      · obtain ⟨buf', oversized', hbuf', heq⟩ :=
          readLoop_of_notMem (ε := ε) hbuf hchunk hmem (.ofChunks rest)
        have hflat : newline ∈ rest.flatten := by simpa [hmem] using h
        have hrec := ih hrest hflat (by simp [hseen, hmem]) hbuf'
        rw [heq, ReadsLine, List.flatten_cons, ← List.append_assoc, lineCuts,
          chunkCuts_of_notMem hmem, openBytes_of_notMem hmem, List.nil_append,
          ← List.length_append]
        exact hrec

/-- **What one call does** with buffers that hold a complete line. -/
theorem readBoundedLine_ofChunks {cap : ℕ} {chunks : List Bytes}
    (hne : ∀ chunk ∈ chunks, chunk ≠ []) (h : newline ∈ chunks.flatten) :
    ReadsLine (ε := ε) cap 0 chunks.flatten chunks (readBoundedLine cap (.ofChunks chunks)) :=
  readLoop_of_mem hne h List.not_mem_nil (buffered_nil cap)

/-- One call on buffers without a complete line. -/
theorem readBoundedLine_of_unterminated {cap : ℕ} {chunks : List Bytes}
    (hne : ∀ chunk ∈ chunks, chunk ≠ []) (h : newline ∉ chunks.flatten) :
    readBoundedLine (ε := ε) cap (.ofChunks chunks) = (.ok (frame cap chunks.flatten).1, []) := by
  rw [readBoundedLine, readLoop_of_unterminated hne h (buffered_nil cap), frame,
    List.idxOf?_eq_none_iff.mpr h]
  rfl

/-! ## All calls -/

theorem frame_line {cap : ℕ} {line after : Bytes} (h : newline ∉ line) :
    frame cap (line ++ newline :: after) =
      (if line.length ≤ cap then .line (fromUtf8Lossy line) else .limitExceeded, after) := by
  rw [frame, idxOf?_newline_append h]
  simp [List.drop_append]

/-- At the end of the input every call is an end of input. -/
theorem calls_nil (cap n : ℕ) : calls (ε := ε) cap n [] = (frames cap n []).map .ok := by
  induction n with
  | zero => rfl
  | succ n ih =>
      rw [calls, frames, List.map_cons]
      exact congrArg _ ih

/-- Two sequences of calls agree when the first calls do and the later ones do. -/
theorem calls_eq_frames_cons {cap : ℕ} {r : Reader ε} {bytes : Bytes} :
    (∀ n, calls cap n r = (frames cap n bytes).map .ok) ↔
      (readBoundedLine cap r).1 = .ok (frame cap bytes).1 ∧
        ∀ n, calls cap n (readBoundedLine cap r).2 =
          (frames cap n (frame cap bytes).2).map .ok := by
  constructor
  · intro h
    have hcons : ∀ n, _ ∧ _ := fun n => List.cons.inj (h (n + 1))
    exact ⟨(hcons 0).1, fun n => (hcons n).2⟩
  · rintro ⟨hfirst, hlater⟩ n
    cases n with
    | zero => rfl
    | succ n => rw [calls, frames, List.map_cons, hfirst, hlater]

/-- Induction along the calls with a cap: the bytes may end in the middle of a line, or a call meets
a complete line and leaves the rest. -/
@[elab_as_elim]
theorem calls_induct (cap : ℕ) {motive : List Bytes → Prop}
    (unterminated : ∀ chunks, (∀ chunk ∈ chunks, chunk ≠ []) → newline ∉ chunks.flatten →
      motive chunks)
    (complete : ∀ chunks line cut rest, chunks.flatten = line ++ newline :: rest.flatten →
      newline ∉ line → lineCuts 0 chunks = cut :: lineCuts 0 rest →
      cut.before + cut.here = line.length →
      readBoundedLine cap (Reader.ofChunks (ε := ε) chunks) =
        (.ok (if cut.before ≤ cap ∧ cut.here < cap then .line (fromUtf8Lossy line)
          else .limitExceeded), Reader.ofChunks rest) →
      motive rest → motive chunks)
    {chunks : List Bytes} (hne : ∀ chunk ∈ chunks, chunk ≠ []) : motive chunks := by
  induction hsize : chunks.flatten.length using Nat.strong_induction_on generalizing chunks with
  | _ size ih =>
      by_cases hmem : newline ∈ chunks.flatten
      · obtain ⟨line, cut, rest, hbytes, hline, hrest, hcuts, hlen, hcall⟩ :=
          readBoundedLine_ofChunks (ε := ε) hne hmem
        have hlt : rest.flatten.length < size := by
          rw [← hsize, hbytes]
          simp only [List.length_append, List.length_cons]
          omega
        exact complete chunks line cut rest hbytes hline hcuts hlen hcall (ih _ hlt hrest rfl)
      · exact unterminated chunks hne hmem

/-- The calls give the framing of the bytes exactly when every cut fits. -/
theorem calls_eq_frames_iff {cap : ℕ} {chunks : List Bytes}
    (hne : ∀ chunk ∈ chunks, chunk ≠ []) :
    (∀ n, calls (ε := ε) cap n (.ofChunks chunks) = (frames cap n chunks.flatten).map .ok) ↔
      ∀ cut ∈ lineCuts 0 chunks, cut.Fits cap := by
  refine calls_induct (ε := ε) cap ?unterminated ?complete hne
  case unterminated =>
      intro chunks hne hnone
      have hrest : (frame cap chunks.flatten).2 = [] := by
        rw [frame, List.idxOf?_eq_none_iff.mpr hnone]
      rw [calls_eq_frames_cons, readBoundedLine_of_unterminated hne hnone, hrest,
        lineCuts_of_notMem hnone]
      exact iff_of_true ⟨rfl, calls_nil cap⟩ (by simp)
  case complete =>
      intro chunks line cut rest hbytes hline hcuts hlen hcall ih
      rw [calls_eq_frames_cons, hcall, hbytes, frame_line hline, ih, hcuts, List.forall_mem_cons,
        LineCut.fits_iff, hlen]
      refine and_congr_left fun _ => ?_
      by_cases hfits : line.length ≤ cap <;>
        by_cases hread : cut.before ≤ cap ∧ cut.here < cap <;>
        simp only [hfits, hread, and_self, ↓reduceIte, Except.ok.injEq, reduceCtorEq, iff_true,
          iff_false, not_true_eq_false]

/-! ## Lines of a stream -/

theorem linesFrom_append {line after : Bytes} (h : newline ∉ line) (opened : Bytes) :
    linesFrom opened (line ++ newline :: after) = (opened ++ line) :: lines after := by
  induction line generalizing opened with
  | nil => simp [linesFrom, lines]
  | cons b line ih =>
      obtain ⟨hb, hline⟩ := List.ne_and_not_mem_of_not_mem_cons h
      simp [linesFrom, ih hline, hb.symm]

theorem linesFrom_of_notMem {bytes : Bytes} (h : newline ∉ bytes) (opened : Bytes) :
    linesFrom opened bytes = [] := by
  induction bytes generalizing opened with
  | nil => rfl
  | cons b bytes ih =>
      obtain ⟨hb, hbytes⟩ := List.ne_and_not_mem_of_not_mem_cons h
      simp [linesFrom, ih hbytes, hb.symm]

theorem lines_append {line after : Bytes} (h : newline ∉ line) :
    lines (line ++ newline :: after) = line :: lines after :=
  linesFrom_append h []

/-- The outcomes of framing a stream: those of the first line, then those of what follows it. -/
theorem exists_mem_frames_cons {cap : ℕ} {bytes : Bytes} {o : LineOutcome} :
    (∃ n, o ∈ frames cap n bytes) ↔
      o = (frame cap bytes).1 ∨ ∃ n, o ∈ frames cap n (frame cap bytes).2 := by
  constructor
  · rintro ⟨n, hn⟩
    cases n with
    | zero => exact absurd hn List.not_mem_nil
    | succ n => exact (List.mem_cons.mp hn).imp_right fun h => ⟨n, h⟩
  · rintro (h | ⟨n, hn⟩)
    · exact ⟨1, List.mem_cons.mpr (.inl h)⟩
    · exact ⟨n + 1, List.mem_cons_of_mem _ hn⟩

theorem eof_of_mem_frames_nil {cap n : ℕ} {o : LineOutcome} (h : o ∈ frames cap n []) :
    o = .eof := by
  induction n with
  | zero => exact absurd h List.not_mem_nil
  | succ n ih => exact (List.mem_cons.mp h).elim id ih

/-- The framing returns the lines of at most `cap` bytes. -/
theorem exists_line_mem_frames_iff {cap : ℕ} {bytes : Bytes} {t : String} :
    (∃ n, .line t ∈ frames cap n bytes) ↔
      ∃ line ∈ lines bytes, line.length ≤ cap ∧ t = fromUtf8Lossy line := by
  induction hsize : bytes.length using Nat.strong_induction_on generalizing bytes with
  | _ size ih =>
      rw [exists_mem_frames_cons]
      by_cases hmem : newline ∈ bytes
      · obtain ⟨line, after, rfl, hline⟩ := List.eq_append_cons_of_mem hmem
        have hlt : after.length < size := by
          rw [← hsize]
          simp only [List.length_append, List.length_cons]
          omega
        rw [frame_line hline, ih _ hlt rfl, lines_append hline, List.exists_mem_cons_iff]
        refine or_congr_left ?_
        by_cases hfits : line.length ≤ cap <;> simp [hfits]
      · rw [lines, linesFrom_of_notMem hmem, frame, List.idxOf?_eq_none_iff.mpr hmem]
        refine iff_of_false ?_ (by simp)
        rintro (h | ⟨n, hn⟩)
        · split_ifs at h
        · exact absurd (eof_of_mem_frames_nil hn) (by simp)

/-- A complete line stands between two newlines, the first of which may be the start. -/
theorem exists_of_mem_lines {bytes line : Bytes} (h : line ∈ lines bytes) :
    ∃ before after, bytes = before ++ line ++ newline :: after ∧ newline ∉ line ∧
      (before = [] ∨ ∃ init, before = init ++ [newline]) := by
  induction hsize : bytes.length using Nat.strong_induction_on generalizing bytes with
  | _ size ih =>
      by_cases hmem : newline ∈ bytes
      · obtain ⟨first, after, rfl, hfirst⟩ := List.eq_append_cons_of_mem hmem
        have hlt : after.length < size := by
          rw [← hsize]
          simp only [List.length_append, List.length_cons]
          omega
        rw [lines_append hfirst] at h
        rcases List.mem_cons.mp h with rfl | h
        · exact ⟨[], after, rfl, hfirst, .inl rfl⟩
        · obtain ⟨before, after', rfl, hline, hbefore⟩ := ih _ hlt h rfl
          refine ⟨first ++ newline :: before, after', by simp, hline, .inr ?_⟩
          rcases hbefore with rfl | ⟨init, rfl⟩
          · exact ⟨first, rfl⟩
          · exact ⟨first ++ newline :: init, by simp⟩
      · rw [lines, linesFrom_of_notMem hmem] at h
        exact absurd h List.not_mem_nil

theorem openBytes_append_openBytes (n : ℕ) (xs ys : Bytes) :
    openBytes n (xs ++ ys) = openBytes (openBytes n xs) ys := by
  induction xs generalizing n with
  | nil => rfl
  | cons b xs ih =>
      rw [List.cons_append, openBytes, openBytes]
      split_ifs
      · exact ih 0
      · exact ih (n + 1)

/-- Every line of a stream can be cut anywhere. -/
theorem exists_splits_cut {bytes line : Bytes} (h : line ∈ lines bytes) (a : ℕ) :
    ∃ chunks, Splits chunks bytes ∧
      ⟨(line.take a).length, (line.drop a).length⟩ ∈ lineCuts 0 chunks := by
  obtain ⟨before, after, rfl, hline, hbefore⟩ := exists_of_mem_lines h
  have htake : newline ∉ line.take a := fun hmem => hline (List.mem_of_mem_take hmem)
  have hdrop : newline ∉ line.drop a := fun hmem => hline (List.mem_of_mem_drop hmem)
  have hopen : openBytes 0 before = 0 := by
    rcases hbefore with rfl | ⟨init, rfl⟩
    · rfl
    · rw [openBytes_append_openBytes]
      simp [openBytes]
  refine ⟨leftover (before ++ line.take a) [line.drop a ++ newline :: after], ⟨?_, ?_⟩, ?_⟩
  · rw [leftover_flatten, List.flatten_singleton, List.append_assoc,
      ← List.append_assoc _ _ (_ :: _), List.take_append_drop, List.append_assoc]
  · exact leftover_nonempty (by simp)
  · rw [lineCuts_leftover, openBytes_append_openBytes, hopen, openBytes_of_notMem htake, lineCuts,
      chunkCuts_append hdrop]
    simp

/-- A cut is one of a line. -/
theorem exists_line_of_cut {chunks : List Bytes} (hne : ∀ chunk ∈ chunks, chunk ≠ []) :
    ∀ cut ∈ lineCuts 0 chunks, ∃ line ∈ lines chunks.flatten,
      cut.before + cut.here = line.length := by
  refine calls_induct (ε := Empty) 0 ?unterminated ?complete hne
  case unterminated =>
      intro chunks _ hnone cut hcut
      rw [lineCuts_of_notMem hnone] at hcut
      exact absurd hcut List.not_mem_nil
  case complete =>
      intro chunks line cut rest hbytes hline hcuts hlen _ ih
      rw [hcuts, hbytes, lines_append hline]
      refine List.forall_mem_cons.mpr ⟨⟨line, List.mem_cons_self, hlen⟩, fun c hc => ?_⟩
      obtain ⟨l, hl, hlen'⟩ := ih c hc
      exact ⟨l, List.mem_cons_of_mem _ hl, hlen'⟩

/-- Whatever the split of the stream, the calls give its framing exactly when each line is shorter
than the cap or at least twice as long, and not of the length of the cap. -/
theorem forall_splits_iff {cap : ℕ} {bytes : Bytes} :
    (∀ chunks, Splits chunks bytes →
        ∀ n, calls (ε := ε) cap n (.ofChunks chunks) = (frames cap n bytes).map .ok) ↔
      ∀ line ∈ lines bytes,
        line.length < cap ∨ (cap < line.length ∧ 2 * cap ≤ line.length) := by
  have hcuts : (∀ chunks, Splits chunks bytes →
        ∀ n, calls (ε := ε) cap n (.ofChunks chunks) = (frames cap n bytes).map .ok) ↔
      ∀ chunks, Splits chunks bytes → ∀ cut ∈ lineCuts 0 chunks, cut.Fits cap := by
    refine forall₂_congr fun chunks hsplits => ?_
    rw [← calls_eq_frames_iff (ε := ε) hsplits.nonempty, hsplits.flatten]
  rw [hcuts]
  constructor
  · intro hfits line hline
    by_contra hlen
    rw [not_or, not_and, Nat.not_lt, Nat.not_le] at hlen
    -- a cut before the last `cap - 1` bytes of the line, or before the whole line
    obtain ⟨chunks, hsplits, hcut⟩ := exists_splits_cut hline
      (if line.length = cap then 0 else line.length - (cap - 1))
    have hfit := hfits chunks hsplits _ hcut
    simp only [LineCut.Fits, List.length_take, List.length_drop] at hfit
    split_ifs at hfit <;> omega
  · intro hlines chunks hsplits cut hcut
    obtain ⟨line, hline, hlen⟩ := exists_line_of_cut hsplits.nonempty cut hcut
    rw [hsplits.flatten] at hline
    have := hlines line hline
    unfold LineCut.Fits
    omega

/-- When the calls give the framing of the bytes, every text they return has `cap` bytes at most
exactly when the lines that fit are not made longer by decoding. -/
theorem texts_le_iff {cap : ℕ} {r : Reader ε} {bytes : Bytes}
    (h : ∀ n, calls cap n r = (frames cap n bytes).map .ok) :
    (∀ n t, .ok (.line t) ∈ calls cap n r → t.utf8ByteSize ≤ cap) ↔
      ∀ line ∈ lines bytes, line.length ≤ cap → (fromUtf8Lossy line).utf8ByteSize ≤ cap := by
  have hmem : ∀ t, (∃ n, .ok (.line t) ∈ calls cap n r) ↔
      ∃ line ∈ lines bytes, line.length ≤ cap ∧ t = fromUtf8Lossy line := by
    intro t
    rw [← exists_line_mem_frames_iff]
    simp [h]
  constructor
  · intro htexts line hline hlen
    obtain ⟨n, hn⟩ := (hmem _).mpr ⟨line, hline, hlen, rfl⟩
    exact htexts n _ hn
  · intro hlines n t hn
    obtain ⟨line, hline, hlen, rfl⟩ := (hmem t).mp ⟨n, hn⟩
    exact hlines line hline hlen

/-- **The bounded line reader frames its input** exactly where its two size tests agree. For
buffers as they come, the calls give the framing of the bytes if and only if every cut fits; they
also return texts of `cap` bytes at most if and only if, besides, no line that fits is made longer
by decoding. For a stream that may be split in any way they give its framing if and only if each
line is shorter than the cap, or longer than it and at least twice as long. -/
theorem readBoundedLine_framing (cap : ℕ) :
    (∀ chunks, (∀ chunk ∈ chunks, chunk ≠ []) →
      ((∀ n, calls (ε := ε) cap n (.ofChunks chunks) = (frames cap n chunks.flatten).map .ok) ↔
        ∀ cut ∈ lineCuts 0 chunks, cut.Fits cap) ∧
      ((∀ n, calls (ε := ε) cap n (.ofChunks chunks) = (frames cap n chunks.flatten).map .ok) ∧
          (∀ n t, .ok (.line t) ∈ calls (ε := ε) cap n (.ofChunks chunks) →
            t.utf8ByteSize ≤ cap) ↔
        (∀ cut ∈ lineCuts 0 chunks, cut.Fits cap) ∧
          ∀ line ∈ lines chunks.flatten, line.length ≤ cap →
            (fromUtf8Lossy line).utf8ByteSize ≤ cap)) ∧
    ∀ bytes,
      (∀ chunks, Splits chunks bytes →
          ∀ n, calls (ε := ε) cap n (.ofChunks chunks) = (frames cap n bytes).map .ok) ↔
        ∀ line ∈ lines bytes,
          line.length < cap ∨ (cap < line.length ∧ 2 * cap ≤ line.length) := by
  refine ⟨fun chunks hne => ⟨calls_eq_frames_iff hne, ?_⟩, fun bytes => forall_splits_iff⟩
  rw [← calls_eq_frames_iff (ε := ε) hne]
  exact and_congr_right fun hframes => texts_le_iff hframes

/-- The reader on `abcd\n` with a cap of four, in two buffers and in one. -/
theorem readBoundedLine_framing_abcd :
    (∀ n, calls (ε := Empty) 4 n (.ofChunks [[97, 98], [99, 100, 10]]) =
      (frames 4 n [97, 98, 99, 100, 10]).map .ok) ∧
    ¬ ∀ n, calls (ε := Empty) 4 n (.ofChunks [[97, 98, 99, 100, 10]]) =
      (frames 4 n [97, 98, 99, 100, 10]).map .ok :=
  ⟨(((readBoundedLine_framing 4).1 [[97, 98], [99, 100, 10]] (by decide)).1).mpr (by decide),
    fun h => absurd
      ((((readBoundedLine_framing 4).1 [[97, 98, 99, 100, 10]] (by decide)).1).mp h) (by decide)⟩

/-- Neither do the outcomes depend on the bytes alone nor has every returned line at most `cap`
bytes: with a cap of four, `abcd\n` is returned from two buffers and refused from one, and `abcde\n`
is returned from two. -/
theorem readBoundedLine_not_framing :
    (¬ ∀ (cap : ℕ) (chunks chunks' : List Bytes), (∀ chunk ∈ chunks, chunk ≠ []) →
      (∀ chunk ∈ chunks', chunk ≠ []) → chunks.flatten = chunks'.flatten →
      ∀ n, calls (ε := Empty) cap n (.ofChunks chunks) = calls cap n (.ofChunks chunks')) ∧
    ¬ ∀ (cap : ℕ) (chunks : List Bytes), (∀ chunk ∈ chunks, chunk ≠ []) →
      ∀ n t, .ok (.line t) ∈ calls (ε := Empty) cap n (.ofChunks chunks) →
        t.utf8ByteSize ≤ cap := by
  constructor
  · intro h
    have hagree := h 4 [[97, 98], [99, 100, 10]] [[97, 98, 99, 100, 10]] (by decide) (by decide)
      (by decide) 1
    exact absurd hagree (by decide)
  · intro h
    have hfits := h 4 [[97, 98, 99], [100, 101, 10]] (by decide) 1 "abcde" (by decide)
    exact absurd hfits (by decide)

end AuraLauncher.Runtime
