import Stratum.Wal.Recover

/-!
# Recoveries that were interrupted

`Recover` writes the batches it read to a file next to the log and renames it over the log. It can
be killed before the rename, any number of times. The log is then as it was; what is left is the
temporary file, with a beginning of what was written to it. The next `Recover` opens it with the
same `NewWriter`, which **appends**: it writes its own output behind what is there, as from the
beginning of a block, and renames both over the log.

* `interrupt d left` is a run that was killed when `left` bytes of its output were in the file.
* **`recoversAgain_of_nothing_left`**: the log that a run leaves is recovered to the same batches
  when the killed runs left no byte. When they left whole records, and the file is still aligned, it
  is not: these are recovered too.
* A part of a record is worse: what is behind it cannot be read (`recover_loses_interrupted`).
-/

namespace Stratum.Wal

open ByteCodec

/-- What a run of `Recover` writes to a temporary file that does not exist, when no write fails. -/
def recoverOutput (file : Bytes) : Bytes := (rewrite [] none (recoverBatches file)).1.file

/-- The bytes in the temporary file. -/
def LogDir.left (d : LogDir) : Bytes := (d.tmp.map LogFile.bytes).getD []

/-- A run of `Recover` that is killed before the rename: before `NewWriter`, or when some bytes of
its output are in the temporary file. -/
def interrupt (d : LogDir) (left : Option ℕ) : LogDir :=
  match d.log, left with
  | some file, some k =>
    if (recoverLoop (Reader.new file)).2 then
      { d with tmp := some ⟨d.left ++ (recoverOutput file).take k, []⟩ }
    else d
  | _, _ => d

/-- A further `Recover` returns the batches that this one did. -/
def RecoversAgain (res : RecoveryResult) (d : LogDir) : Prop :=
  ∃ res', (recover [] d).1 = .ok res' ∧ res'.batches = res.batches

theorem recoverOutput_eq (file : Bytes) :
    recoverOutput file = (encoded ((recoverBatches file).map Batch.encode)).bytes := by
  have hfile := rewrite_file (Prod.ext rfl (rewrite_noFaults none (recoverBatches file)))
  rwa [Option.map_none, Option.getD_none, List.nil_append] at hfile

/-- A run that is killed does not touch the log. -/
theorem interrupt_log (d : LogDir) (left : Option ℕ) : (interrupt d left).log = d.log := by
  unfold interrupt
  split
  · split <;> rfl
  · rfl

/-- **Run lemma**: no number of them does. -/
theorem foldl_interrupt_log (d : LogDir) (kills : List (Option ℕ)) :
    (kills.foldl interrupt d).log = d.log := by
  induction kills generalizing d with
  | nil => rfl
  | cons left kills ih => rw [List.foldl_cons, ih, interrupt_log]

/-- A log with nothing wrong is not rewritten, so nothing is left. -/
theorem foldl_interrupt_of_clean {d : LogDir} {file : Bytes} (hlog : d.log = some file)
    (hclean : (recoverLoop (Reader.new file)).2 = false) (kills : List (Option ℕ)) :
    kills.foldl interrupt d = d := by
  have hstep : ∀ left, interrupt d left = d := by
    intro left
    unfold interrupt
    split
    · rename_i hsome
      cases hlog.symm.trans hsome
      rw [if_neg (by simp [hclean])]
    · rfl
  induction kills with
  | nil => rfl
  | cons left kills ih => rw [List.foldl_cons, hstep, ih]

/-- What is in the log after a `Recover`: what was there, or what was left and its own output. -/
theorem recover_log {faults : List Bool} {d d' : LogDir} {file : Bytes} {res : RecoveryResult}
    (hlog : d.log = some file) (h : recover faults d = (.ok res, d')) :
    res.batches = recoverBatches file ∧
      (((recoverLoop (Reader.new file)).2 = false ∧ d'.log = some file) ∨
        (recoverLoop (Reader.new file)).2 = true ∧
          d'.log = some (d.left ++ recoverOutput file)) := by
  rw [recover, hlog] at h
  dsimp only at h
  split at h
  · rename_i hbad
    split at h
    · cases h
    · rename_i w hrewrite
      cases h
      refine ⟨rfl, .inr ⟨hbad, ?_⟩⟩
      rw [rewrite_file hrewrite, recoverOutput_eq]
      rfl
  · rename_i hgood
    cases h
    exact ⟨rfl, .inl ⟨Bool.eq_false_of_not_eq_true hgood, hlog⟩⟩

/-- What a further `Recover` returns, from the log alone. -/
theorem recoversAgain_iff {res : RecoveryResult} {d : LogDir} {file : Bytes}
    (hlog : d.log = some file) : RecoversAgain res d ↔ recoverBatches file = res.batches := by
  obtain ⟨log, tmp⟩ := d
  obtain rfl : log = some file := hlog
  obtain ⟨res', hres', hread⟩ := recover_noFaults file tmp
  constructor
  · rintro ⟨res'', hres'', hsame⟩
    cases hres'.symm.trans hres''
    rw [← hread, hsame]
  · exact fun hsame => ⟨res', hres', hread.trans hsame⟩

/-- The pieces of some records, and of others behind them. -/
theorem Holds.append {records records' : List Bytes} {ps ps' : List Piece}
    (h : Holds records ps) (h' : Holds records' ps') : Holds (records ++ records') (ps ++ ps') := by
  obtain ⟨qss, hqss, rfl⟩ := h
  obtain ⟨qss', hqss', rfl⟩ := h'
  exact ⟨qss ++ qss', List.rel_append hqss hqss', List.flatten_append.symm⟩

/-- **Interrupted recoveries are harmless when they left nothing.** `Recover` is killed on a log any
number of times, and then succeeds. If no byte was left in the temporary file, a further `Recover`
returns the same batches. If whole records were left there, and the output behind them is still
aligned with the blocks of the file, it does not. -/
theorem recoversAgain_of_nothing_left {file : Bytes} {kills : List (Option ℕ)}
    {faults : List Bool} {d d' : LogDir} {res : RecoveryResult}
    (hd : d = kills.foldl interrupt ⟨some file, none⟩)
    (h : recover faults d = (.ok res, d')) :
    (d.left = [] → RecoversAgain res d') ∧
      ∀ (bs : List Batch) (ps : List Piece), bs ≠ [] → (∀ b ∈ bs, b.Fits ∧ b.recovered = b) →
        Holds (bs.map Batch.encode) ps → d.left = ps.flatMap Piece.bytes →
        Aligned 0 (ps ++ (encoded (res.batches.map Batch.encode)).pieces) →
        ¬ RecoversAgain res d' := by
  have hlog : d.log = some file := hd ▸ foldl_interrupt_log _ kills
  obtain ⟨hres, hnew⟩ := recover_log hlog h
  have hnormal : ∀ b ∈ recoverBatches file, b.Fits ∧ b.recovered = b := recoverLoop_normal _
  refine ⟨fun hleft => ?_, fun bs ps hne hbs hps hleft haligned => ?_⟩
  · obtain ⟨-, hsame⟩ | ⟨-, hnew⟩ := hnew
    · rw [recoversAgain_iff hsame, hres]
    · rw [recoversAgain_iff hnew, hleft, List.nil_append, recoverOutput_eq, recoverBatches,
        recoverLoop_encoded hnormal, hres]
  · obtain ⟨hclean, -⟩ | ⟨-, hnew⟩ := hnew
    · -- nothing can be left then
      have hnil : ps.flatMap Piece.bytes = [] := by
        rw [← hleft, hd, foldl_interrupt_of_clean rfl hclean]
        rfl
      obtain ⟨qss, hqss, rfl⟩ := hps
      rw [List.forall₂_map_left_iff] at hqss
      cases hqss with
      | nil => exact absurd rfl hne
      | cons hqs _ =>
        rw [List.flatten_cons, List.flatMap_append, List.append_eq_nil_iff] at hnil
        exact absurd hnil.1 hqs.bytes_ne_nil
    · have hholds : Holds ((bs ++ recoverBatches file).map Batch.encode)
          (ps ++ (encoded ((recoverBatches file).map Batch.encode)).pieces) := by
        rw [List.map_append]
        exact hps.append (holds_encoded _)
      have hat := Reader.at_new (d.left ++ recoverOutput file)
      nth_rewrite 2 [hleft] at hat
      rw [recoverOutput_eq, encoded_bytes, ← List.flatMap_append] at hat
      rw [hres] at haligned
      have hloop := recoverLoop_of_aligned hholds
        (List.forall_mem_append.2 ⟨hbs, hnormal⟩) hat haligned
      rw [recoversAgain_iff hnew, recoverBatches, recoverOutput_eq, encoded_bytes, hloop, hres]
      exact fun hsame => hne (List.append_left_eq_self.1 hsame)

/-- A log of one put with bytes behind it that are no record. -/
def damagedLog : Bytes :=
  (encoded [Batch.encode ⟨[⟨opPut, [1], some [2]⟩]⟩]).bytes ++ List.replicate 8 1

/-- Two runs that were killed before they wrote anything. -/
theorem recoversAgain_killed_early :
    ∃ res d, recover [] ([none, some 0].foldl interrupt ⟨some damagedLog, none⟩) = (.ok res, d) ∧
      RecoversAgain res d := by
  obtain ⟨res, hres, -⟩ := recover_noFaults damagedLog (some ⟨[], []⟩)
  have hstart : [none, some 0].foldl interrupt ⟨some damagedLog, none⟩ =
      ⟨some damagedLog, some ⟨[], []⟩⟩ := by
    have hbad : (recoverLoop (Reader.new damagedLog)).2 = true := by decide +kernel
    simp [interrupt, hbad, LogDir.left]
  refine ⟨res, _, Prod.ext (by rw [hstart, hres]) rfl, ?_⟩
  exact (@recoversAgain_of_nothing_left damagedLog [none, some 0] [] _ _ res rfl
    (Prod.ext (by rw [hstart, hres]) rfl)).1 (by rw [hstart]; rfl)

/-- **An interrupted recovery loses the log.** A log of one put is damaged behind it. One run of
`Recover` is killed when three bytes of its output are in the temporary file. The next one returns
the put and renames the file over the log; and now the log begins with the three bytes, and a
further `Recover` returns nothing. -/
theorem recover_loses_interrupted :
    ∃ res d res', recover [] (interrupt ⟨some damagedLog, none⟩ (some 3)) = (.ok res, d) ∧
      res.batches = [⟨[⟨opPut, [1], some [2]⟩]⟩] ∧
      (recover [] d).1 = .ok res' ∧ res'.batches = [] := by
  generalize hd : interrupt ⟨some damagedLog, none⟩ (some 3) = d
  have hlog : d.log = some damagedLog := hd ▸ interrupt_log _ _
  have hd' : d = ⟨some damagedLog, d.tmp⟩ := by rw [← hlog]
  obtain ⟨res, hres, hread⟩ := recover_noFaults damagedLog d.tmp
  rw [← hd'] at hres
  have hput : recoverBatches damagedLog = [⟨[⟨opPut, [1], some [2]⟩]⟩] := by decide +kernel
  -- the three bytes, and the output of the second run
  obtain ⟨-, ⟨hclean, -⟩ | ⟨-, hnew⟩⟩ := recover_log hlog (Prod.ext hres rfl)
  · exact absurd hclean (by decide +kernel)
  · have hnone : recoverBatches (d.left ++ recoverOutput damagedLog) = [] := by
      rw [← hd]
      decide +kernel
    have hlost : RecoversAgain ⟨[], 0, 0, 0, 0⟩ (recover [] d).2 := (recoversAgain_iff hnew).2 hnone
    obtain ⟨res', hres', hbatches⟩ := hlost
    exact ⟨res, _, res', Prod.ext hres rfl, hread.trans hput, hres', hbatches⟩

end Stratum.Wal
