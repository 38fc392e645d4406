import Mathlib.Data.List.Forall2
import Mathlib.Data.List.Induction
import Stratum.Wal.Layout

/-!
# Reading back what was written to the log

Whatever the writer emits is a sequence of pieces, and the file is their bytes one after the other
(`Writer.OnDisk.bytes_eq`); the pieces of one record are its fragments in order, with padding in
between (`Fragments`). The reader finds them again when the sequence is **aligned**: every physical
record lies inside one block of the file and every padding ends at the end of one.
`At.readLoop_fragments` is that statement for one record, and `At.readRecords_of_crossesFirst` the
converse for a physical record that begins inside a block, header and all, and ends outside it:
reading stops there with `ErrShortRecord`.

A writer that is never synced before it is closed keeps its log aligned, but after `Sync` or a
reopening it measures its blocks from the wrong place (`readsBack_fails_after_sync`).
-/

namespace Stratum.Wal

open ByteCodec

/-! ### What the writer emits -/

namespace Writer

/-- The file holds the first pieces, at least `synced`; the rest is in the open block, which a
crash loses. -/
def OnDisk (w : Writer) (synced : List Piece) : Prop :=
  ∃ ps qs, w.pieces = ps ++ qs ∧ w.file = ps.flatMap Piece.bytes ∧
    w.block = qs.flatMap Piece.bytes ∧ synced <+: ps

variable {w : Writer} {synced : List Piece}

/-- The file and the open block are the bytes of the pieces. -/
theorem OnDisk.bytes_eq (h : w.OnDisk synced) :
    w.file ++ w.block = w.pieces.flatMap Piece.bytes := by
  obtain ⟨ps, qs, hpieces, hfile, hblock, -⟩ := h
  rw [hfile, hblock, hpieces, List.flatMap_append]

theorem OnDisk.put (h : w.OnDisk synced) (p : Piece) : (w.put p).OnDisk synced := by
  obtain ⟨ps, qs, hpieces, hfile, hblock, hpre⟩ := h
  exact ⟨ps, qs ++ [p], by simp [Writer.put, hpieces], hfile, by simp [Writer.put, hblock], hpre⟩

theorem OnDisk.flushBlock (h : w.OnDisk synced) : w.flushBlock.1.OnDisk synced := by
  obtain ⟨ps, qs, hpieces, hfile, hblock, hpre⟩ := h
  simp only [Writer.flushBlock]
  split
  · exact ⟨ps, qs, hpieces, hfile, hblock, hpre⟩
  · split
    · exact ⟨ps, qs, hpieces, hfile, hblock, hpre⟩
    · exact ⟨ps ++ qs, [], by simp [hpieces], by simp [hfile, hblock], rfl,
        hpre.trans (List.prefix_append ps qs)⟩

theorem OnDisk.makeRoom (h : w.OnDisk synced) : w.makeRoom.1.OnDisk synced := by
  simp only [Writer.makeRoom]
  split
  · split
    · exact (h.put _).flushBlock
    · exact h.flushBlock
  · exact h

/-- **Run lemma** for the loop of `Append`: what is on disk stays there. -/
theorem OnDisk.appendLoop (h : w.OnDisk synced) (record : Bytes) (first : Bool) :
    (w.appendLoop record first).1.OnDisk synced := by
  induction w, record, first using Writer.appendLoop.induct with
  | case1 w record first w' e hroom =>
    have hw' := h.makeRoom
    rw [hroom] at hw'
    rwa [appendLoop_of_makeRoom_error hroom]
  | case2 w record first w' hroom hlast =>
    have hw' := h.makeRoom
    rw [hroom] at hw'
    rw [appendLoop_of_makeRoom hroom, if_pos hlast]
    exact hw'.put _
  | case3 w record first w' hroom hlast ih =>
    have hw' := h.makeRoom
    rw [hroom] at hw'
    rw [appendLoop_of_makeRoom hroom, if_neg hlast]
    exact ih (hw'.put _)

/-- With nothing in the open block, everything is on disk. -/
theorem OnDisk.of_block_nil (h : w.OnDisk synced) (hblock : w.block = []) :
    w.OnDisk w.pieces := by
  obtain ⟨ps, qs, hpieces, hfile, hqs, -⟩ := h
  refine ⟨w.pieces, [], by simp, ?_, by simp [hblock], List.prefix_rfl⟩
  rw [hpieces, List.flatMap_append, ← hqs, hblock, List.append_nil, hfile]

end Writer

/-- The pieces of a record: its fragments in order, with padding before any of them. -/
inductive Fragments : Bool → Bytes → List Piece → Prop
  | last {first record} (hlen : record.length ≤ blockSize - headerSize) :
      Fragments first record [.frag (Writer.fragType first true) record]
  | more {first a b ps} (hlen : a.length ≤ blockSize - headerSize) (h : Fragments false b ps) :
      Fragments first (a ++ b) (.frag (Writer.fragType first false) a :: ps)
  | pad {first record ps n} (hpos : 0 < n) (hlt : n < headerSize)
      (h : Fragments first record ps) : Fragments first record (.pad n :: ps)

variable {ps : List Piece} {records : List Bytes} {pos : ℕ}

theorem Fragments.bytes_ne_nil {first : Bool} {data : Bytes} (h : Fragments first data ps) :
    ps.flatMap Piece.bytes ≠ [] := by
  have hfrag : ∀ typ payload, (Piece.frag typ payload).bytes ≠ [] := by
    intro typ payload hnil
    have := congrArg List.length hnil
    simp [headerSize] at this
  cases h with
  | last _ => simpa using hfrag _ _
  | more _ _ => simp [hfrag]
  | pad hpos _ _ => simp [Piece.bytes, hpos.ne']

namespace Writer

/-- Writing a block out emits nothing, whether it succeeds or not. -/
theorem flushBlock_pieces (w : Writer) : w.flushBlock.1.pieces = w.pieces := by
  simp only [flushBlock]
  repeat' split
  all_goals rfl

/-- What `makeRoom` emits, whether it succeeds or not: nothing, or padding. -/
theorem makeRoom_pieces {w w' : Writer} {e : Option WalErr} (h : w.makeRoom = (w', e)) :
    w'.pieces = w.pieces ∨
      ∃ n, 0 < n ∧ n < headerSize ∧ w'.pieces = w.pieces ++ [.pad n] := by
  obtain rfl : w.makeRoom.1 = w' := by rw [h]
  simp only [makeRoom]
  split
  · rename_i hroom
    rw [flushBlock_pieces]
    split
    · rename_i hpos
      exact .inr ⟨_, hpos, hroom, rfl⟩
    · exact .inl rfl
  · exact .inl rfl

/-- What is put after `makeRoom` has padding before it, or nothing. -/
theorem makeRoom_append {P : List Piece → Prop}
    (hpad : ∀ n ps, 0 < n → n < headerSize → P ps → P (.pad n :: ps)) {w w' : Writer}
    {e : Option WalErr} (h : w.makeRoom = (w', e)) {ps : List Piece} (hps : P ps) :
    ∃ ps', P ps' ∧ w'.pieces ++ ps = w.pieces ++ ps' := by
  rcases makeRoom_pieces h with heq | ⟨n, hpos, hlt, heq⟩
  · exact ⟨ps, hps, by rw [heq]⟩
  · exact ⟨.pad n :: ps, hpad n ps hpos hlt hps, by rw [heq]; simp⟩

private theorem avail_le (w : Writer) : w.avail ≤ blockSize - headerSize := by
  rw [avail]
  omega

/-- **A record is emitted as its fragments.** -/
theorem appendLoop_pieces {w w' : Writer} {record : Bytes} {first : Bool}
    (h : w.appendLoop record first = (w', none)) :
    ∃ ps, Fragments first record ps ∧ w'.pieces = w.pieces ++ ps := by
  induction w, record, first using Writer.appendLoop.induct with
  | case1 w record first w₁ e hroom =>
    rw [appendLoop_of_makeRoom_error hroom] at h
    cases h
  | case2 w record first w₁ hroom hlast =>
    rw [appendLoop_of_makeRoom hroom, if_pos hlast] at h
    cases h
    exact makeRoom_append (fun _ _ => .pad) hroom (.last (hlast.trans w₁.avail_le))
  | case3 w record first w₁ hroom hlast ih =>
    rw [appendLoop_of_makeRoom hroom, if_neg hlast] at h
    obtain ⟨ps, hps, heq⟩ := ih h
    have hmore : Fragments first (record.take w₁.avail ++ record.drop w₁.avail)
        (.frag (fragType first false) (record.take w₁.avail) :: ps) := by
      refine .more ?_ hps
      rw [List.length_take]
      exact (min_le_left _ _).trans w₁.avail_le
    rw [List.take_append_drop] at hmore
    obtain ⟨ps', hps', heq'⟩ := makeRoom_append (fun _ _ => .pad) hroom hmore
    refine ⟨ps', hps', ?_⟩
    rw [heq, ← heq']
    simp [put]

/-- A record that fits the open block goes there in one piece. -/
theorem append_fits {w : Writer} {record : Bytes} (hclosed : w.closed = false)
    (hfits : w.block.length + headerSize + record.length ≤ blockSize) :
    w.append record = (w.put (.frag recordFull record), none) := by
  have hroom : w.makeRoom = (w, none) := by
    rw [makeRoom, if_neg (by omega)]
  have hlast : record.length ≤ w.avail := by
    rw [avail]
    omega
  rw [append, if_neg (by simp [hclosed]), appendLoop_of_makeRoom hroom, if_pos hlast]
  rfl

/-- Without faults every write succeeds. -/
theorem flushBlock_noFaults {w : Writer} (h : w.faults = []) :
    w.flushBlock.2 = none ∧ w.flushBlock.1.faults = [] := by
  simp only [flushBlock, h]
  split
  · exact ⟨rfl, h⟩
  · exact ⟨rfl, rfl⟩

/-- Closing emits nothing. -/
theorem close_pieces (w : Writer) : w.close.1.pieces = w.pieces := by
  simp only [close, flushBlock]
  repeat' split
  all_goals rfl

/-- Closing a writer whose block is empty writes nothing. -/
theorem close_of_block_nil {w : Writer} (h : w.block = []) :
    w.close.1.file = w.file ∧ w.close.1.block = [] ∧ w.close.1.faults = w.faults := by
  rw [close]
  split
  · exact ⟨rfl, h, rfl⟩
  · rw [flushBlock, if_pos h]
    exact ⟨rfl, h, rfl⟩

theorem makeRoom_noFaults {w : Writer} (h : w.faults = []) :
    w.makeRoom.2 = none ∧ w.makeRoom.1.faults = [] := by
  simp only [makeRoom]
  split
  · split
    · exact flushBlock_noFaults h
    · exact flushBlock_noFaults h
  · exact ⟨rfl, h⟩

theorem appendLoop_noFaults {w : Writer} (h : w.faults = []) (record : Bytes) (first : Bool) :
    (w.appendLoop record first).2 = none ∧ (w.appendLoop record first).1.faults = [] := by
  induction w, record, first using Writer.appendLoop.induct with
  | case1 w record first w₁ e hroom =>
    have := (makeRoom_noFaults h).1
    rw [hroom] at this
    cases this
  | case2 w record first w₁ hroom hlast =>
    have hf := (makeRoom_noFaults h).2
    rw [hroom] at hf
    rw [appendLoop_of_makeRoom hroom, if_pos hlast]
    exact ⟨rfl, hf⟩
  | case3 w record first w₁ hroom hlast ih =>
    have hf := (makeRoom_noFaults h).2
    rw [hroom] at hf
    rw [appendLoop_of_makeRoom hroom, if_neg hlast]
    exact ih hf

end Writer

/-! ### Sessions -/

/-- What a session does between `NewWriter` and `Close`. -/
inductive WalOp
  | append (record : Bytes)
  | sync
deriving DecidableEq, Repr

/-- The records that a list of operations appends. -/
def appended (ops : List WalOp) : List Bytes :=
  ops.filterMap fun
    | .append record => some record
    | .sync => none

/-- The log file, with the pieces it was written as. -/
structure LogFile where
  bytes : Bytes
  pieces : List Piece

/-- `NewWriter`, on a file that is there or is created. -/
def Writer.new (f : Option LogFile) : Writer :=
  match f with
  | none => ⟨[], [], false, [], []⟩
  | some f => ⟨f.bytes, [], false, [], f.pieces⟩

/-- One operation of a session. -/
def Writer.perform (w : Writer) : WalOp → Writer
  | .append record => (w.append record).1
  | .sync => w.sync.1

/-- A session without errors: `NewWriter`, the operations, `Close`. -/
def session (f : Option LogFile) (ops : List WalOp) : LogFile :=
  let w := (ops.foldl Writer.perform (Writer.new f)).close.1
  ⟨w.file, w.pieces⟩

/-- The file after the sessions, none when there was no session. -/
def logFile (sessions : List (List WalOp)) : Option LogFile :=
  sessions.foldl (fun f ops => some (session f ops)) none

/-- The records appended so far, each with its fragments, make up the pieces. -/
def Holds (records : List Bytes) (pieces : List Piece) : Prop :=
  ∃ qss : List (List Piece), List.Forall₂ (Fragments true) records qss ∧ pieces = qss.flatten

theorem Holds.concat {pieces : List Piece} {record : Bytes} (h : Holds records pieces)
    (hps : Fragments true record ps) :
    Holds (records ++ [record]) (pieces ++ ps) := by
  obtain ⟨qss, hqss, rfl⟩ := h
  exact ⟨qss ++ [ps], List.rel_append hqss (.cons hps .nil), by simp⟩

/-- What a session keeps of its writer. -/
structure SessionInv (records : List Bytes) (w : Writer) : Prop where
  disk : w.OnDisk []
  holds : Holds records w.pieces
  faults : w.faults = []
  closed : w.closed = false

/-- **Step lemma**: an operation of a session. -/
theorem SessionInv.perform {w : Writer} (h : SessionInv records w) (op : WalOp) :
    SessionInv (records ++ appended [op]) (w.perform op) := by
  cases op with
  | append record =>
    obtain ⟨hok, hfaults⟩ := Writer.appendLoop_noFaults h.faults record true
    obtain ⟨ps, hps, hpieces⟩ :=
      @Writer.appendLoop_pieces w (w.appendLoop record true).1 record true (Prod.ext rfl hok)
    have hperform : w.perform (.append record) = (w.appendLoop record true).1 := by
      rw [Writer.perform, Writer.append, if_neg (by simp [h.closed])]
    rw [hperform]
    refine ⟨h.disk.appendLoop record true, ?_, hfaults,
      (w.appendLoop_closed record true).trans h.closed⟩
    rw [hpieces]
    exact h.holds.concat hps
  | sync =>
    have hperform : w.perform .sync = w.flushBlock.1 := by
      rw [Writer.perform, Writer.sync, if_neg (by simp [h.closed])]
    obtain ⟨hok, hfaults⟩ := Writer.flushBlock_noFaults h.faults
    obtain ⟨-, -, hpieces, hclosed⟩ := @Writer.flushBlock_cases w w.flushBlock.1 (Prod.ext rfl hok)
    rw [hperform]
    refine ⟨h.disk.flushBlock, ?_, hfaults, hclosed.trans h.closed⟩
    rw [hpieces]
    simpa [appended] using h.holds

/-- **Run lemma**: the operations of a session. -/
theorem SessionInv.foldl {w : Writer} (h : SessionInv records w) (ops : List WalOp) :
    SessionInv (records ++ appended ops) (ops.foldl Writer.perform w) := by
  induction ops generalizing records w with
  | nil => simpa [appended] using h
  | cons op ops ih =>
    have := ih (h.perform op)
    rw [List.append_assoc] at this
    have hsplit : appended [op] ++ appended ops = appended (op :: ops) := by
      rw [appended, appended, appended, ← List.filterMap_append]
      rfl
    rwa [hsplit] at this

/-- A session appends the fragments of its records to the file. -/
theorem session_holds {f : Option LogFile} (ops : List WalOp) (hdisk : (Writer.new f).OnDisk [])
    (hholds : Holds records (Writer.new f).pieces) :
    (session f ops).bytes = (session f ops).pieces.flatMap Piece.bytes ∧
      Holds (records ++ appended ops) (session f ops).pieces := by
  have hnew : SessionInv records (Writer.new f) := by
    cases f with
    | none | some f => exact ⟨hdisk, hholds, rfl, rfl⟩
  have h := hnew.foldl ops
  set w := ops.foldl Writer.perform (Writer.new f) with hw
  have hclose : w.close = { w with closed := true }.flushBlock := by
    rw [Writer.close, if_neg (by simp [h.closed])]
  have hok : ({ w with closed := true } : Writer).flushBlock.2 = none :=
    (@Writer.flushBlock_noFaults { w with closed := true } h.faults).1
  obtain ⟨hblock, -, hpieces, -⟩ := @Writer.flushBlock_cases { w with closed := true }
    ({ w with closed := true } : Writer).flushBlock.1 (Prod.ext rfl hok)
  have hbytes := (@Writer.OnDisk.flushBlock { w with closed := true } [] h.disk).bytes_eq
  rw [hblock, List.append_nil] at hbytes
  have hsession : session f ops = ⟨w.close.1.file, w.close.1.pieces⟩ := rfl
  rw [hsession, hclose]
  refine ⟨hbytes, ?_⟩
  dsimp only
  rw [hpieces]
  exact h.holds

/-- **The file after any sessions** holds the records of all of them. -/
theorem logFile_holds {sessions : List (List WalOp)} {f : LogFile}
    (h : logFile sessions = some f) :
    f.bytes = f.pieces.flatMap Piece.bytes ∧ Holds (sessions.flatMap appended) f.pieces := by
  induction sessions using List.reverseRecOn generalizing f with
  | nil => cases h
  | append_singleton sessions ops ih =>
    rw [logFile, List.foldl_append, List.foldl_cons, List.foldl_nil] at h
    cases h
    rw [List.flatMap_append, List.flatMap_singleton]
    change (session (logFile sessions) ops).bytes = _ ∧ _
    cases hf : logFile sessions with
    | none =>
      have hnil : sessions = [] := by
        rcases List.eq_nil_or_concat' sessions with rfl | ⟨init, last, rfl⟩
        · rfl
        · simp [logFile] at hf
      subst hnil
      exact session_holds ops ⟨[], [], rfl, rfl, rfl, List.prefix_rfl⟩ ⟨[], .nil, rfl⟩
    | some f' =>
      obtain ⟨hbytes, hholds⟩ := ih hf
      have hfold : List.foldl (fun f ops => some (session f ops)) none sessions = some f' := hf
      rw [hfold]
      exact session_holds ops
        ⟨f'.pieces, [], by simp [Writer.new], hbytes, rfl, List.nil_prefix⟩ hholds

/-! ### Where the pieces lie -/

/-- A physical record lies inside one block of the file, padding ends at the end of one. -/
def Piece.Fits (pos : ℕ) : Piece → Prop
  | .frag _ payload => pos % blockSize + headerSize + payload.length ≤ blockSize
  | .pad n => pos % blockSize + n = blockSize

/-- The header of a physical record lies inside one block of the file, but the fragment behind it
leaves the block. -/
def Piece.Crosses (pos : ℕ) : Piece → Prop
  | .frag _ payload => pos % blockSize + headerSize ≤ blockSize ∧
      blockSize < pos % blockSize + headerSize + payload.length
  | .pad _ => False

/-- The pieces from `pos` on all fit. -/
def Aligned : ℕ → List Piece → Prop
  | _, [] => True
  | pos, p :: ps => p.Fits pos ∧ Aligned (pos + p.bytes.length) ps

/-- The first piece that does not fit crosses the end of its block. -/
def CrossesFirst : ℕ → List Piece → Prop
  | _, [] => False
  | pos, p :: ps => p.Crosses pos ∨ p.Fits pos ∧ CrossesFirst (pos + p.bytes.length) ps

instance (pos : ℕ) : (p : Piece) → Decidable (p.Fits pos)
  | .frag _ _ => inferInstanceAs (Decidable (_ ≤ _))
  | .pad _ => inferInstanceAs (Decidable (_ = _))

theorem aligned_append {qs : List Piece} :
    Aligned pos (ps ++ qs) ↔
      Aligned pos ps ∧ Aligned (pos + (ps.flatMap Piece.bytes).length) qs := by
  induction ps generalizing pos with
  | nil => simp [Aligned]
  | cons p ps ih =>
    rw [List.cons_append, Aligned, ih, Aligned, List.flatMap_cons, List.length_append, and_assoc,
      Nat.add_assoc]

theorem crossesFirst_append {qs : List Piece} :
    CrossesFirst pos (ps ++ qs) ↔ CrossesFirst pos ps ∨
      Aligned pos ps ∧ CrossesFirst (pos + (ps.flatMap Piece.bytes).length) qs := by
  induction ps generalizing pos with
  | nil => simp [CrossesFirst, Aligned]
  | cons p ps ih =>
    rw [List.cons_append, CrossesFirst, ih, CrossesFirst, Aligned, List.flatMap_cons,
      List.length_append, Nat.add_assoc, and_or_left, and_assoc, or_assoc]

/-! ### The same in numbers -/

/-- The spans of the operations of a session, from a block with `fill` bytes on. `Sync` writes the
block out, and the writer begins to count anew. -/
def opSpans : ℕ → List WalOp → List Span
  | _, [] => []
  | fill, .append record :: ops =>
    spans fill record.length ++ opSpans (fillAfter fill record.length) ops
  | _, .sync :: ops => opSpans 0 ops

/-- The spans of the sessions: each begins with an empty block. -/
def layout (sessions : List (List WalOp)) : List Span := sessions.flatMap (opSpans 0)

/-- The spans from `pos` on all fit: a physical record lies inside one block of the file, padding
ends at the end of one. -/
def InBlocks : ℕ → List Span → Prop
  | _, [] => True
  | pos, .frag n :: ss =>
    pos % blockSize + headerSize + n ≤ blockSize ∧ InBlocks (pos + (headerSize + n)) ss
  | pos, .pad n :: ss => pos % blockSize + n = blockSize ∧ InBlocks (pos + n) ss

/-- The first span that does not fit is that of a physical record whose header lies inside one
block, and whose fragment leaves the block. -/
def LeavesBlock : ℕ → List Span → Prop
  | _, [] => False
  | pos, .frag n :: ss =>
    pos % blockSize + headerSize ≤ blockSize ∧ blockSize < pos % blockSize + headerSize + n ∨
      pos % blockSize + headerSize + n ≤ blockSize ∧ LeavesBlock (pos + (headerSize + n)) ss
  | pos, .pad n :: ss => pos % blockSize + n = blockSize ∧ LeavesBlock (pos + n) ss

theorem inBlocks_iff :
    InBlocks pos (ps.map Piece.span) ↔ Aligned pos ps := by
  induction ps generalizing pos with
  | nil => rfl
  | cons p ps ih => cases p <;> simp [InBlocks, Aligned, Piece.span, Piece.Fits, ih]

theorem leavesBlock_iff :
    LeavesBlock pos (ps.map Piece.span) ↔ CrossesFirst pos ps := by
  induction ps generalizing pos with
  | nil => rfl
  | cons p ps ih =>
    cases p <;> simp [LeavesBlock, CrossesFirst, Piece.span, Piece.Fits, Piece.Crosses, ih]

/-- The operations of a session without errors emit their spans. -/
theorem Writer.foldl_spans {w : Writer} (hopen : w.closed = false) (hfaults : w.faults = [])
    (hle : w.block.length ≤ blockSize) (ops : List WalOp) :
    (ops.foldl Writer.perform w).pieces.map Piece.span =
      w.pieces.map Piece.span ++ opSpans w.block.length ops := by
  induction ops generalizing w with
  | nil => simp [opSpans]
  | cons op ops ih =>
    rw [List.foldl_cons]
    cases op with
    | append record =>
      have hopen' := (w.append_closed record).trans hopen
      have hlayout := appendLoop_layout hle record true
      rw [append, if_neg (by simp [hopen])] at hopen'
      rw [perform, append, if_neg (by simp [hopen]), opSpans]
      simp only [hfaults, List.take_nil, List.drop_nil, List.any_nil, Bool.false_eq_true,
        false_and, true_and, false_or] at hlayout
      obtain ⟨w', hw', hfill, hle', hfaults', hspans⟩ := hlayout
      rw [hw'] at hopen' ⊢
      rw [ih hopen' hfaults' hle', hspans, hfill, List.append_assoc]
    | sync =>
      obtain ⟨hok, hfaults'⟩ := flushBlock_noFaults hfaults
      obtain ⟨hblock, -, hpieces, hclosed⟩ := @flushBlock_cases w w.flushBlock.1 (Prod.ext rfl hok)
      rw [perform, sync, if_neg (by simp [hopen]), opSpans,
        ih (hclosed.trans hopen) hfaults' (by simp [hblock]), hpieces, hblock]
      rfl

/-! ### Reading a piece -/

namespace Reader

/-- Between two pieces the reader stands at `pos` in the file, with `tail` behind it: either at the
beginning of a block that is not loaded, or inside a block of which it holds the rest. -/
structure At (r : Reader) (pos : ℕ) (tail : Bytes) : Prop where
  block : r.block = if pos % blockSize = 0 then [] else tail.take (blockSize - pos % blockSize)
  rest : r.rest = if pos % blockSize = 0 then tail else tail.drop (blockSize - pos % blockSize)
  eof : r.eof = true → r.rest = []

theorem at_new (file : Bytes) : (Reader.new file).At 0 file :=
  ⟨rfl, rfl, nofun⟩

/-- A block with no room for a header is followed by the next one. -/
theorem readLoop_readBlock {r : Reader} (hblock : r.block.length < headerSize)
    (heof : r.eof = false) (hrest : r.rest ≠ []) (record : Bytes) (inFragmentedRecord : Bool) :
    r.readLoop record inFragmentedRecord =
      (⟨r.rest.drop blockSize, r.rest.take blockSize, decide (r.rest.length < blockSize)⟩ :
        Reader).readLoop record inFragmentedRecord := by
  have hread : r.readBlock = (⟨r.rest.drop blockSize, r.rest.take blockSize,
      decide (r.rest.length < blockSize)⟩, none) := by
    rw [readBlock, if_neg hrest, heof, Bool.false_or]
  rw [readLoop, dif_pos hblock, if_neg (by simp [heof])]
  split
  · rename_i h
    rw [hread] at h
    cases h
  · rename_i h
    rw [hread] at h
    cases h
  · rename_i h
    rw [hread] at h
    cases h
    rfl

variable {r : Reader} {typ : RecordType} {payload tail : Bytes} {pos : ℕ} {records : List Bytes}
  {pieces : List Piece}

/-- At the end of the file. -/
theorem readLoop_eof (hblock : r.block.length < headerSize) (hrest : r.rest = []) (record : Bytes)
    (inFragmentedRecord : Bool) :
    (r.readLoop record inFragmentedRecord).2 =
      .error (if inFragmentedRecord then .shortRecord else .eof) := by
  have hread : r.readBlock = ({ r with eof := true }, some .eof) := by
    rw [readBlock, if_pos hrest]
  rw [readLoop, dif_pos hblock]
  split
  · rfl
  · split
    · rfl
    · rename_i hne h
      rw [hread] at h
      cases h
      exact (hne rfl).elim
    · rename_i h
      rw [hread] at h
      cases h

/-- The header fields of a physical record. -/
theorem headerFields_header (tail : Bytes) (hlen : payload.length < 65536) :
    headerFields (header typ payload ++ tail) =
      ((checksum typ payload).toNat, payload.length, typ) := by
  have hcrc : (leBytes 4 (checksum typ payload).toNat).length = 4 := length_leBytes _ _
  have hlength : (leBytes 2 payload.length).length = 2 := length_leBytes _ _
  have hsplit : header typ payload ++ tail = leBytes 4 (checksum typ payload).toNat ++
      (leBytes 2 payload.length ++ (typ :: tail)) := by
    simp [header]
  rw [hsplit, headerFields, List.take_left' hcrc, List.drop_left' hcrc, List.take_left' hlength,
    leNat_leBytes_of_lt (checksum typ payload).toNat_lt, leNat_leBytes_of_lt hlen]
  have hdrop : (leBytes 4 (checksum typ payload).toNat ++
      (leBytes 2 payload.length ++ typ :: tail)).drop 6 = typ :: tail := by
    rw [← List.append_assoc]
    exact List.drop_left' (by simp)
  rw [hdrop, List.headD_cons]

/-- What `ReadRecord` does with a physical record that is in order. -/
def accept (r : Reader) (record : Bytes) (inFragmentedRecord : Bool) (typ : RecordType)
    (payload : Bytes) : Reader × Except WalErr Bytes :=
  if !inFragmentedRecord then
    if typ = recordFull then (r, .ok (record ++ payload))
    else if typ = recordFirst then r.readLoop (record ++ payload) true
    else (r, .error .corruptRecord)
  else
    if typ = recordLast then (r, .ok (record ++ payload))
    else if typ = recordMiddle then r.readLoop (record ++ payload) true
    else (r, .error .corruptRecord)

/-- A physical record at the front of the block. -/
theorem readLoop_header (hblock : r.block = header typ payload ++ (payload ++ tail))
    (htyp : typ ≠ 0) (hlen : payload.length < 65536) (record : Bytes) (inFragmentedRecord : Bool) :
    r.readLoop record inFragmentedRecord =
      ({ r with block := tail } : Reader).accept record inFragmentedRecord typ payload := by
  have hlength : r.block.length = headerSize + (payload.length + tail.length) := by
    simp [hblock]
  have hdrop : r.block.drop headerSize = payload ++ tail := by
    rw [hblock, List.drop_left' (length_header _ _)]
  have hdrop' : r.block.drop (headerSize + payload.length) = tail := by
    rw [← List.drop_drop, hdrop, List.drop_left' rfl]
  rw [readLoop, dif_neg (by omega)]
  have hfields : headerFields r.block = ((checksum typ payload).toNat, payload.length, typ) := by
    rw [hblock, headerFields_header _ hlen]
  simp only [hfields]
  rw [if_neg (fun h => htyp h.2), if_neg (by omega), hdrop, hdrop', List.take_left' rfl,
    if_neg (fun h => h rfl)]
  rfl

/-- A physical record whose fragment is not all in the block. -/
theorem readLoop_short {r : Reader} {typ : RecordType} {payload tail : Bytes}
    (hblock : r.block = header typ payload ++ tail) (hshort : tail.length < payload.length)
    (hlen : payload.length < 65536) (record : Bytes) (inFragmentedRecord : Bool) :
    (r.readLoop record inFragmentedRecord).2 = .error .shortRecord := by
  have hlength : r.block.length = headerSize + tail.length := by
    simp [hblock]
  rw [readLoop, dif_neg (by omega)]
  have hfields : headerFields r.block = ((checksum typ payload).toNat, payload.length, typ) := by
    rw [hblock, headerFields_header _ hlen]
  simp only [hfields]
  rw [if_neg (by omega), if_pos (by omega)]

/-- The reader inside a block: it holds the block from `pos` on. -/
structure Loaded (r : Reader) (pos : ℕ) (tail : Bytes) : Prop where
  block : r.block = tail.take (blockSize - pos % blockSize)
  rest : r.rest = tail.drop (blockSize - pos % blockSize)
  eof : r.eof = true → r.rest = []

/-- Before it reads on, the reader loads the block it stands at. -/
theorem At.loaded (h : r.At pos tail) (hne : tail ≠ []) :
    ∃ r' : Reader, r'.Loaded pos tail ∧
      ∀ record inFragmentedRecord,
        r.readLoop record inFragmentedRecord = r'.readLoop record inFragmentedRecord := by
  by_cases hpos : pos % blockSize = 0
  · have hblock := h.block
    have hrest := h.rest
    rw [if_pos hpos] at hblock hrest
    have heof : r.eof = false := by
      rw [← Bool.not_eq_true]
      exact fun he => hne (hrest ▸ h.eof he)
    refine ⟨⟨tail.drop blockSize, tail.take blockSize, decide (tail.length < blockSize)⟩, ?_, ?_⟩
    · refine ⟨by simp [hpos], by simp [hpos], ?_⟩
      intro hlt
      simp only [decide_eq_true_eq] at hlt
      simpa using hlt.le
    · intro record inFragmentedRecord
      rw [readLoop_readBlock (by simp [hblock, headerSize]) heof (hrest ▸ hne), hrest]
  · refine ⟨r, ⟨?_, ?_, h.eof⟩, fun _ _ => rfl⟩
    · rw [h.block, if_neg hpos]
    · rw [h.rest, if_neg hpos]

/-- Having read `n` bytes of its block, the reader stands behind them. -/
theorem Loaded.at_add {a : Bytes} (h : r.Loaded pos (a ++ tail))
    (hfits : pos % blockSize + a.length ≤ blockSize) (hpos : 0 < a.length) :
    ({ r with block := tail.take (blockSize - pos % blockSize - a.length) } : Reader).At
      (pos + a.length) tail := by
  have hsize : 0 < blockSize := by decide
  have hdrop : r.rest = tail.drop (blockSize - pos % blockSize - a.length) := by
    rw [h.rest, List.drop_append, List.drop_eq_nil_of_le (by omega), List.nil_append]
  rcases Nat.lt_or_eq_of_le hfits with hlt | heq
  · have hmod : (pos + a.length) % blockSize = pos % blockSize + a.length := by
      rw [Nat.add_mod, Nat.mod_eq_of_lt (show a.length < blockSize by omega),
        Nat.mod_eq_of_lt hlt]
    have hne : ¬ (pos + a.length) % blockSize = 0 := by omega
    refine ⟨?_, ?_, h.eof⟩
    · rw [if_neg hne, hmod, Nat.sub_add_eq]
    · rw [if_neg hne, hmod, Nat.sub_add_eq]
      exact hdrop
  · have hmod : (pos + a.length) % blockSize = 0 := by
      rw [← Nat.div_add_mod pos blockSize, Nat.add_assoc, heq, Nat.mul_add_mod_self_left,
        Nat.mod_self]
    refine ⟨?_, ?_, h.eof⟩
    · rw [if_pos hmod]
      simp [show blockSize - pos % blockSize - a.length = 0 by omega]
    · rw [if_pos hmod]
      simpa [show blockSize - pos % blockSize - a.length = 0 by omega] using hdrop

theorem frag_append_ne_nil (typ : RecordType) (payload tail : Bytes) :
    (Piece.frag typ payload).bytes ++ tail ≠ [] := by
  have hheader : headerSize = 7 := rfl
  rw [← List.length_pos_iff, List.length_append, length_bytes_frag]
  omega

/-- **A physical record that fits is read.** -/
theorem At.readLoop_frag (h : r.At pos ((Piece.frag typ payload).bytes ++ tail))
    (hfits : (Piece.frag typ payload).Fits pos) (htyp : typ ≠ 0) :
    ∃ r' : Reader, r'.At (pos + (Piece.frag typ payload).bytes.length) tail ∧
      ∀ record inFragmentedRecord, r.readLoop record inFragmentedRecord =
        r'.accept record inFragmentedRecord typ payload := by
  have hlength := length_bytes_frag typ payload
  have hheader : headerSize = 7 := rfl
  have hsize : blockSize = 32768 := rfl
  obtain ⟨r₁, hloaded, hread⟩ := h.loaded (frag_append_ne_nil typ payload tail)
  rw [Piece.Fits] at hfits
  refine ⟨_, hloaded.at_add (by omega) (by omega), fun record inFragmentedRecord => ?_⟩
  rw [hread]
  refine readLoop_header ?_ htyp (by omega) record inFragmentedRecord
  rw [hloaded.block, List.take_append, List.take_of_length_le (by omega), Piece.bytes,
    List.append_assoc]

/-- A physical record that crosses the end of its block is not read. -/
theorem At.readLoop_crosses (h : r.At pos ((Piece.frag typ payload).bytes ++ tail))
    (hcross : (Piece.frag typ payload).Crosses pos) (hlen : payload.length < 65536) (record : Bytes)
    (inFragmentedRecord : Bool) :
    (r.readLoop record inFragmentedRecord).2 = .error .shortRecord := by
  have hlength := length_bytes_frag typ payload
  have hheader : headerSize = 7 := rfl
  obtain ⟨r₁, hloaded, hread⟩ := h.loaded (frag_append_ne_nil typ payload tail)
  rw [Piece.Crosses] at hcross
  rw [hread]
  refine @readLoop_short r₁ typ payload
    ((payload ++ tail).take (blockSize - pos % blockSize - headerSize)) ?_ ?_ hlen record
    inFragmentedRecord
  · rw [hloaded.block, Piece.bytes, List.append_assoc, List.take_append,
      List.take_of_length_le (by rw [length_header]; omega), length_header]
  · rw [List.length_take]
    omega

/-- Padding is skipped. -/
theorem At.readLoop_pad {n : ℕ} (h : r.At pos ((Piece.pad n).bytes ++ tail))
    (hfits : (Piece.pad n).Fits pos) (hpos : 0 < n) (hlt : n < headerSize) (hne : tail ≠ []) :
    ∃ r' : Reader, r'.At (pos + (Piece.pad n).bytes.length) tail ∧
      ∀ record inFragmentedRecord,
        r.readLoop record inFragmentedRecord = r'.readLoop record inFragmentedRecord := by
  have hheader : headerSize = 7 := rfl
  have hsize : blockSize = 32768 := rfl
  rw [Piece.Fits] at hfits
  have hlength := length_bytes_pad n
  have hmod : ¬ pos % blockSize = 0 := by omega
  have hroom : blockSize - pos % blockSize = (Piece.pad n).bytes.length := by omega
  have hloaded : r.Loaded pos ((Piece.pad n).bytes ++ tail) := by
    refine ⟨?_, ?_, h.eof⟩
    · rw [h.block, if_neg hmod]
    · rw [h.rest, if_neg hmod]
  have hrest : r.rest = tail := by
    rw [hloaded.rest, hroom, List.drop_left' rfl]
  have hblock : r.block.length < headerSize := by
    rw [hloaded.block, hroom, List.take_left' rfl, hlength]
    exact hlt
  have heof : r.eof = false := by
    rw [← Bool.not_eq_true]
    exact fun he => hne (hrest ▸ h.eof he)
  refine ⟨_, hloaded.at_add (by omega) (by omega), fun record inFragmentedRecord => ?_⟩
  have hnil : tail.take (blockSize - pos % blockSize - (Piece.pad n).bytes.length) = [] := by
    rw [hroom, Nat.sub_self, List.take_zero]
  have hne' : r.rest ≠ [] := hrest ▸ hne
  rw [readLoop_readBlock hblock heof hne', hnil]
  exact (@readLoop_readBlock ⟨r.rest, [], r.eof⟩ (Nat.succ_pos 6) heof hne' record
    inFragmentedRecord).symm

/-! ### Reading a record -/

theorem accept_last (r : Reader) (record : Bytes) (first : Bool) (payload : Bytes) :
    r.accept record (!first) (Writer.fragType first true) payload =
      (r, .ok (record ++ payload)) := by
  cases first <;> rfl

theorem accept_more (r : Reader) (record : Bytes) (first : Bool) (payload : Bytes) :
    r.accept record (!first) (Writer.fragType first false) payload =
      r.readLoop (record ++ payload) true := by
  cases first <;> rfl

/-- **A record whose pieces are aligned is read back.** -/
theorem At.readLoop_fragments {first : Bool} {data : Bytes} {ps : List Piece}
    (hps : Fragments first data ps) (h : r.At pos (ps.flatMap Piece.bytes ++ tail))
    (haligned : Aligned pos ps) (record : Bytes) :
    ∃ r', r.readLoop record (!first) = (r', .ok (record ++ data)) ∧
      r'.At (pos + (ps.flatMap Piece.bytes).length) tail := by
  induction hps generalizing r pos record with
  | @last first data _ =>
    rw [List.flatMap_singleton] at h
    obtain ⟨r', hat, hread⟩ := h.readLoop_frag haligned.1 (Writer.fragType_ne_zero _ _)
    refine ⟨r', ?_, by rwa [List.flatMap_singleton]⟩
    rw [hread, accept_last]
  | @more first a b ps _ hb ih =>
    rw [List.flatMap_cons, List.append_assoc] at h
    obtain ⟨r₁, hat, hread⟩ := h.readLoop_frag haligned.1 (Writer.fragType_ne_zero _ _)
    obtain ⟨r', hread', hat'⟩ := ih hat haligned.2 (record ++ a)
    refine ⟨r', ?_, ?_⟩
    · rw [hread, accept_more, ← List.append_assoc]
      exact hread'
    · rwa [List.flatMap_cons, List.length_append, ← Nat.add_assoc]
  | @pad first data ps n hpos hlt hdata ih =>
    rw [List.flatMap_cons, List.append_assoc] at h
    have hne : ps.flatMap Piece.bytes ++ tail ≠ [] := by
      simp [hdata.bytes_ne_nil]
    obtain ⟨r₁, hat, hread⟩ := h.readLoop_pad haligned.1 hpos hlt hne
    obtain ⟨r', hread', hat'⟩ := ih hat haligned.2 record
    refine ⟨r', by rw [hread, hread'], ?_⟩
    rwa [List.flatMap_cons, List.length_append, ← Nat.add_assoc]

/-- **A record with a piece that crosses the end of its block is not read back.** -/
theorem At.readLoop_fragments_crosses {first : Bool} {data : Bytes} {ps : List Piece}
    (hps : Fragments first data ps) (h : r.At pos (ps.flatMap Piece.bytes ++ tail))
    (hcross : CrossesFirst pos ps) (record : Bytes) :
    (r.readLoop record (!first)).2 = .error .shortRecord := by
  have hsize : blockSize = 32768 := rfl
  induction hps generalizing r pos record with
  | @last first data hlen =>
    rw [List.flatMap_singleton] at h
    rcases hcross with hcross | ⟨-, hfalse⟩
    · exact h.readLoop_crosses hcross (by omega) record _
    · exact hfalse.elim
  | @more first a b ps hlen hb ih =>
    rw [List.flatMap_cons, List.append_assoc] at h
    rcases hcross with hcross | ⟨hfits, hrest⟩
    · exact h.readLoop_crosses hcross (by omega) record _
    · obtain ⟨r₁, hat, hread⟩ := h.readLoop_frag hfits (Writer.fragType_ne_zero _ _)
      rw [hread, accept_more]
      exact ih hat hrest (record ++ a)
  | @pad first data ps n hpos hlt hdata ih =>
    rw [List.flatMap_cons, List.append_assoc] at h
    rcases hcross with hfalse | ⟨hfits, hrest⟩
    · exact hfalse.elim
    · have hne : ps.flatMap Piece.bytes ++ tail ≠ [] := by
        simp [hdata.bytes_ne_nil]
      obtain ⟨r₁, hat, hread⟩ := h.readLoop_pad hfits hpos hlt hne
      rw [hread]
      exact ih hat hrest record

/-! ### Reading the log -/

/-- The reader at the end of the file, in whatever state. -/
theorem At.readLoop_nil (h : r.At pos []) (record : Bytes) (inFragmentedRecord : Bool) :
    (r.readLoop record inFragmentedRecord).2 =
      .error (if inFragmentedRecord then .shortRecord else .eof) := by
  have hblock := h.block
  have hrest := h.rest
  simp only [List.take_nil, List.drop_nil, ite_self] at hblock hrest
  exact readLoop_eof (by simp [hblock, headerSize]) hrest record inFragmentedRecord

/-- At the end of the file `ReadRecord` says so. -/
theorem At.readRecord_nil (h : r.At pos []) :
    r.readRecord.2 = .error .eof := h.readLoop_nil [] false

/-- Reading stops at an error. -/
theorem readRecords_of_error {e : WalErr} (h : r.readRecord.2 = .error e) (n : ℕ) :
    r.readRecords (n + 1) = ([], some e) := by
  rw [readRecords]
  split
  · rename_i hread
    rw [hread] at h
    cases h
    rfl
  · rename_i hread
    rw [hread] at h
    cases h

/-- **Aligned records are read back**, one after the other, and then what follows them. -/
theorem At.readRecords_append (hholds : Holds records pieces)
    (h : r.At pos (pieces.flatMap Piece.bytes ++ tail)) (haligned : Aligned pos pieces) :
    ∃ r' : Reader, r'.At (pos + (pieces.flatMap Piece.bytes).length) tail ∧ ∀ n,
      r.readRecords (records.length + n) =
        (records ++ (r'.readRecords n).1, (r'.readRecords n).2) := by
  obtain ⟨qss, hqss, rfl⟩ := hholds
  induction hqss generalizing r pos with
  | nil => exact ⟨r, by simpa using h, fun n => by simp⟩
  | @cons record ps records qss hps _ ih =>
    rw [List.flatten_cons, List.flatMap_append, List.append_assoc] at h
    rw [List.flatten_cons, aligned_append] at haligned
    obtain ⟨r₁, hread, hat⟩ := h.readLoop_fragments hps haligned.1 []
    rw [List.nil_append, Bool.not_true, ← readRecord] at hread
    obtain ⟨r', hat', hrest⟩ := ih hat haligned.2
    refine ⟨r', ?_, fun n => ?_⟩
    · rwa [List.flatten_cons, List.flatMap_append, List.length_append, ← Nat.add_assoc]
    · rw [List.length_cons, Nat.add_right_comm, readRecords, hread]
      simp only [hrest, List.cons_append]

/-- **An aligned log is read back**, and then ends. -/
theorem At.readRecords_of_aligned (hholds : Holds records pieces)
    (h : r.At pos (pieces.flatMap Piece.bytes)) (haligned : Aligned pos pieces) :
    r.readRecords (records.length + 1) = (records, some .eof) := by
  rw [← List.append_nil (pieces.flatMap Piece.bytes)] at h
  obtain ⟨r', hat, hread⟩ := h.readRecords_append hholds haligned
  rw [hread, readRecords_of_error hat.readRecord_nil, List.append_nil]

/-- **A log whose first misfit crosses the end of its block** is read up to the record it belongs
to, and no further. -/
theorem At.readRecords_of_crossesFirst (hholds : Holds records pieces)
    (h : r.At pos (pieces.flatMap Piece.bytes)) (hcross : CrossesFirst pos pieces) :
    ∃ read : List Bytes, read.length < records.length ∧ read <+: records ∧
      r.readRecords (records.length + 1) = (read, some .shortRecord) := by
  obtain ⟨qss, hqss, rfl⟩ := hholds
  induction hqss generalizing r pos with
  | nil => exact hcross.elim
  | @cons record ps records qss hps _ ih =>
    rw [List.flatten_cons, List.flatMap_append] at h
    rw [List.flatten_cons, crossesFirst_append] at hcross
    rcases hcross with hcross | ⟨haligned, hcross⟩
    · have hshort : r.readRecord.2 = .error .shortRecord :=
        h.readLoop_fragments_crosses hps hcross []
      exact ⟨[], by simp, List.nil_prefix, readRecords_of_error hshort _⟩
    · obtain ⟨r', hread, hat⟩ := h.readLoop_fragments hps haligned []
      rw [List.nil_append, Bool.not_true, ← readRecord] at hread
      obtain ⟨read, hlt, hpre, hread'⟩ := ih hat hcross
      refine ⟨record :: read, by simpa using hlt, List.cons_prefix_cons.mpr ⟨rfl, hpre⟩, ?_⟩
      rw [List.length_cons, readRecords, hread]
      simp only [hread']

end Reader

/-! ### Sessions read back -/

/-- **The log gives back what was put into it**: after the sessions, reading the file returns every
record that any of them appended, in order, and then the end of the file. -/
def ReadsBack (sessions : List (List WalOp)) : Prop :=
  ∃ f, logFile sessions = some f ∧
    (Reader.new f.bytes).readRecords ((sessions.flatMap appended).length + 1) =
      (sessions.flatMap appended, some .eof)

/-- The pieces of the file after the sessions. -/
def logPieces (sessions : List (List WalOp)) : List Piece :=
  match logFile sessions with
  | none => []
  | some f => f.pieces

/-- The file of some sessions, and a reader at its beginning. -/
theorem exists_logFile {sessions : List (List WalOp)} (h : sessions ≠ []) :
    ∃ f, logFile sessions = some f ∧ logPieces sessions = f.pieces ∧
      Holds (sessions.flatMap appended) f.pieces ∧
        (Reader.new f.bytes).At 0 (f.pieces.flatMap Piece.bytes) := by
  rcases List.eq_nil_or_concat' sessions with rfl | ⟨init, last, rfl⟩
  · exact absurd rfl h
  · have hf : logFile (init ++ [last]) = some (session (logFile init) last) := by
      rw [logFile, List.foldl_append]
      rfl
    obtain ⟨hbytes, hholds⟩ := logFile_holds hf
    exact ⟨_, hf, by rw [logPieces, hf], hholds, hbytes ▸ Reader.at_new _⟩

/-- The pieces of the file have the spans that the record lengths, the `Sync`s and the ends of the
sessions make. -/
theorem spans_logPieces (sessions : List (List WalOp)) :
    (logPieces sessions).map Piece.span = layout sessions := by
  induction sessions using List.reverseRecOn with
  | nil => rfl
  | append_singleton sessions ops ih =>
    have hnew : (Writer.new (logFile sessions)).pieces = logPieces sessions ∧
        (Writer.new (logFile sessions)).block = [] ∧ (Writer.new (logFile sessions)).faults = [] ∧
          (Writer.new (logFile sessions)).closed = false := by
      rw [logPieces]
      cases logFile sessions with
      | none => exact ⟨rfl, rfl, rfl, rfl⟩
      | some f => exact ⟨rfl, rfl, rfl, rfl⟩
    obtain ⟨hpieces, hblock, hfaults, hopen⟩ := hnew
    have hlast : logPieces (sessions ++ [ops]) =
        (ops.foldl Writer.perform (Writer.new (logFile sessions))).close.1.pieces := by
      rw [logPieces, logFile, List.foldl_append]
      rfl
    rw [hlast, Writer.close_pieces, Writer.foldl_spans hopen hfaults (by simp [hblock]), hpieces,
      ih, hblock, layout, layout, List.flatMap_append, List.flatMap_singleton]
    rfl

private theorem not_readsBack_of_leavesBlock {sessions : List (List WalOp)} (hsome : sessions ≠ [])
    (h : LeavesBlock 0 (layout sessions)) : ¬ ReadsBack sessions := by
  obtain ⟨f, hf, hpieces, hholds, hat⟩ := exists_logFile hsome
  rw [← spans_logPieces, leavesBlock_iff, hpieces] at h
  obtain ⟨read, -, -, hread⟩ := hat.readRecords_of_crossesFirst hholds h
  rintro ⟨f', hf', hread'⟩
  cases hf.symm.trans hf'
  rw [hread] at hread'
  cases hread'

/-- **What the log gives back.** The lengths of the records, the `Sync`s and the ends of sessions
say where the physical records go. If every one of them lies inside one block of the file and every
padding ends at the end of one, then reading the file returns every record appended, in order, and
then the end of the file. If instead the first one out of place is a physical record that begins
inside a block, header and all, and leaves it, then reading does not. -/
theorem readsBack_of_inBlocks_and_not_of_leavesBlock {sessions : List (List WalOp)}
    (hsome : sessions ≠ []) :
    (InBlocks 0 (layout sessions) → ReadsBack sessions) ∧
      (LeavesBlock 0 (layout sessions) → ¬ ReadsBack sessions) := by
  refine ⟨fun hin => ?_, not_readsBack_of_leavesBlock hsome⟩
  obtain ⟨f, hf, hpieces, hholds, hat⟩ := exists_logFile hsome
  rw [← spans_logPieces, inBlocks_iff, hpieces] at hin
  exact ⟨f, hf, hat.readRecords_of_aligned hholds hin⟩

/-- Two sessions of one short record each: the second record starts inside the first block. -/
theorem readsBack_two_short_sessions :
    [[WalOp.append [1, 2]], [.append [3], .sync]] ≠ [] ∧
      ReadsBack [[.append [1, 2]], [.append [3], .sync]] := by
  refine ⟨by decide, ?_⟩
  refine (readsBack_of_inBlocks_and_not_of_leavesBlock (by decide)).1 ?_
  exact ⟨by decide, by decide, trivial⟩

/-- Two records with a `Sync` between them, that together do not fit one block. -/
private theorem not_readsBack_sync {a b : Bytes}
    (ha : headerSize + a.length + headerSize ≤ blockSize) (hb : headerSize + b.length ≤ blockSize)
    (hcross : blockSize < headerSize + a.length + headerSize + b.length) :
    ¬ ReadsBack [[.append a, .sync, .append b]] := by
  have hheader : headerSize = 7 := rfl
  have hsize : blockSize = 32768 := rfl
  have hlayout : layout [[.append a, .sync, .append b]] = [.frag a.length, .frag b.length] := by
    have hroom : roomFor 0 = blockSize := rfl
    have hpadding : padding 0 = [] := rfl
    have hfits : ∀ {n}, headerSize + n ≤ blockSize → fragments blockSize n = [n] :=
      fun h => fragments_of_le (Nat.le_sub_of_add_le' h)
    simp [layout, opSpans, spans, hroom, hpadding, hfits hb, hfits (n := a.length) (by omega)]
  refine not_readsBack_of_leavesBlock (by simp) ?_
  rw [hlayout]
  simp only [LeavesBlock, hheader, hsize] at ha hcross ⊢
  omega

/-- **Reading fails after a `Sync`.** A record of 20000 bytes, `Sync`, and another one: the second
starts 20007 bytes into the first block of the file and leaves it, and `ReadRecord` answers
`ErrShortRecord` in its place. -/
theorem readsBack_fails_after_sync :
    ¬ ReadsBack [[.append (List.replicate 20000 0), .sync, .append (List.replicate 20000 0)]] := by
  have hlen : (List.replicate 20000 (0 : UInt8)).length = 20000 := List.length_replicate
  refine not_readsBack_sync ?_ ?_ ?_
  · rw [hlen]
    decide
  · rw [hlen]
    decide
  · rw [hlen]
    decide

/-! ### A session that is never synced -/

/-- What a session on a new file keeps while it is not synced: the blocks the writer counts are
those of the file. -/
structure BlockInv (w : Writer) : Prop where
  file : w.file.length % blockSize = 0
  block : w.block.length ≤ blockSize
  disk : w.OnDisk []
  aligned : Aligned 0 w.pieces

/-- A piece that fits the open block fits a block of the file. -/
theorem BlockInv.put {w : Writer} (h : BlockInv w) {p : Piece}
    (hlen : w.block.length + p.bytes.length ≤ blockSize) (hfits : p.Fits w.block.length) :
    BlockInv (w.put p) := by
  refine ⟨h.file, ?_, h.disk.put p, ?_⟩
  · simpa [Writer.put] using hlen
  · have hpos : (w.pieces.flatMap Piece.bytes).length = w.file.length + w.block.length := by
      rw [← h.disk.bytes_eq, List.length_append]
    have hmod : (w.file.length + w.block.length) % blockSize = w.block.length % blockSize := by
      rw [Nat.add_mod, h.file, Nat.zero_add, Nat.mod_mod]
    rw [Writer.put, aligned_append, hpos, Nat.zero_add]
    refine ⟨h.aligned, ?_, trivial⟩
    cases p with
    | frag typ payload => rwa [Piece.Fits, hmod]
    | pad n => rwa [Piece.Fits, hmod]

/-- A full block is written to the file, or stays where it is. -/
theorem BlockInv.flushBlock {w : Writer} (h : BlockInv w) (hfull : w.block.length = blockSize) :
    BlockInv w.flushBlock.1 := by
  have hdisk := h.disk.flushBlock
  have hpieces := w.flushBlock_pieces
  rcases hflush : w.flushBlock with ⟨w', e⟩
  rw [hflush] at hdisk hpieces
  have haligned : Aligned 0 w'.pieces := hpieces ▸ h.aligned
  rcases e with _ | e
  · obtain ⟨hblock, hfile, -, -⟩ := Writer.flushBlock_cases hflush
    refine ⟨?_, by simp [hblock], hdisk, haligned⟩
    rw [hfile, List.length_append, hfull, Nat.add_mod_right, h.file]
  · simp only [Writer.flushBlock] at hflush
    split at hflush
    · cases hflush
    · split at hflush
      · cases hflush
        exact ⟨h.file, h.block, hdisk, haligned⟩
      · cases hflush

theorem BlockInv.makeRoom {w : Writer} (h : BlockInv w) : BlockInv w.makeRoom.1 := by
  have hheader : headerSize = 7 := rfl
  have hsize : blockSize = 32768 := rfl
  have hle := h.block
  simp only [Writer.makeRoom]
  split
  · rename_i hrem
    split
    · have hpad : BlockInv (w.put (.pad (blockSize - w.block.length))) := by
        refine h.put ?_ ?_
        · rw [length_bytes_pad]
          omega
        · rw [Piece.Fits, Nat.mod_eq_of_lt (by omega)]
          omega
      refine hpad.flushBlock ?_
      rw [Writer.put, List.length_append, length_bytes_pad]
      omega
    · exact h.flushBlock (by omega)
  · exact h

/-- **Run lemma** for the loop of `Append` on a log that is not synced, whether it succeeds or
not. -/
theorem BlockInv.appendLoop {w : Writer} (h : BlockInv w) (record : Bytes) (first : Bool) :
    BlockInv (w.appendLoop record first).1 := by
  have hheader : headerSize = 7 := rfl
  have hput : ∀ {w : Writer} {typ : RecordType} {payload : Bytes}, BlockInv w →
      w.block.length + headerSize + payload.length ≤ blockSize →
      BlockInv (w.put (.frag typ payload)) := by
    intro w typ payload hw hlen
    refine hw.put ?_ ?_
    · rw [length_bytes_frag]
      omega
    · rw [Piece.Fits, Nat.mod_eq_of_lt (by omega)]
      exact hlen
  induction w, record, first using Writer.appendLoop.induct with
  | case1 w record first w₁ e hroom =>
    have hw₁ := h.makeRoom
    rw [hroom] at hw₁
    rwa [Writer.appendLoop_of_makeRoom_error hroom]
  | case2 w record first w₁ hroom hlast =>
    have hw₁ := h.makeRoom
    rw [hroom] at hw₁
    rw [Writer.appendLoop_of_makeRoom hroom, if_pos hlast]
    have hleft := Writer.makeRoom_room hroom
    rw [Writer.avail] at hlast
    exact hput hw₁ (by omega)
  | case3 w record first w₁ hroom hlast ih =>
    have hw₁ := h.makeRoom
    rw [hroom] at hw₁
    rw [Writer.appendLoop_of_makeRoom hroom, if_neg hlast]
    refine ih (hput hw₁ ?_)
    have hleft := Writer.makeRoom_room hroom
    have hlen := List.length_take_le w₁.avail record
    rw [Writer.avail] at hlen ⊢
    omega

/-- A writer on a new file, whatever writes are to fail. -/
theorem BlockInv.new (faults : List Bool) :
    BlockInv { Writer.new none with faults := faults } := by
  have hdisk : ({ Writer.new none with faults := faults } : Writer).OnDisk [] :=
    ⟨[], [], rfl, rfl, rfl, List.prefix_rfl⟩
  exact ⟨rfl, Nat.zero_le _, hdisk, trivial⟩

/-- **One session without `Sync`** leaves an aligned log. -/
theorem aligned_of_no_sync {ops : List WalOp} (hsync : WalOp.sync ∉ ops) :
    Aligned 0 (logPieces [ops]) := by
  have hrun : ∀ {records w}, SessionInv records w → BlockInv w →
      BlockInv (ops.foldl Writer.perform w) := by
    induction ops with
    | nil => exact fun _ hblock => hblock
    | cons op ops ih =>
      intro records w hsession hblock
      refine ih (fun hmem => hsync (List.mem_cons_of_mem _ hmem)) (hsession.perform op) ?_
      cases op with
      | append record =>
        rw [Writer.perform, Writer.append, if_neg (by simp [hsession.closed])]
        exact hblock.appendLoop record true
      | sync => exact absurd (List.mem_cons_self ..) hsync
  have hdisk : (Writer.new none).OnDisk [] := ⟨[], [], rfl, rfl, rfl, List.prefix_rfl⟩
  have h := @hrun [] (Writer.new none) ⟨hdisk, ⟨[], .nil, rfl⟩, rfl, rfl⟩ (.new [])
  change Aligned 0 (ops.foldl Writer.perform (Writer.new none)).close.1.pieces
  rw [Writer.close_pieces]
  exact h.aligned

end Stratum.Wal
