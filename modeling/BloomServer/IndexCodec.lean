import BloomServer.DbSound

/-! `_db_writeidx` and `_db_readidx`: an index record that is written is read back from where it was
written, appended or over an older one. -/
namespace BloomServer
open DecimalText

/-- The numbers of a record that is to be written are within the ranges of their fields. -/
structure Dbd.InRange (dbd : Dbd) : Prop where
  idxlen : dbd.idxlen ≤ idxlenMax
  datoff : dbd.datoff < 2 ^ 63
  datlen : dbd.datlen ≤ datlenMax
  datlenU : dbd.datlenU < 2 ^ 31
  isfree : dbd.isfree < 2 ^ 31

/-- What is read is what was written. -/
structure Restores (dbd : Dbd) (key : List UInt8) (ptrval : ℕ) (r : Dbd) : Prop where
  idxbuf : r.idxbuf = key
  datoff : r.datoff = dbd.datoff
  datlen : r.datlen = dbd.datlen
  datlenU : r.datlenU = dbd.datlenU
  idxlenU : r.idxlenU = key.length
  isfree : r.isfree = dbd.isfree
  ptrval : r.ptrval = ptrval

section Codec

variable {f : ByteFile} {db : Db} {dbd old d : Dbd} {key : List UInt8} {offset ptrval v : ℕ}
  {append : Bool} {r : IndexRec}

theorem Dbd.InRange.readable (ranges : dbd.InRange) (noNul : 0 ∉ key)
    (short : (dbd.text key).length + 1 ≤ idxlenMax) : (dbd.written key).Readable where
  noNul := noNul
  area := Nat.le_max_right _ _
  room := by
    rw [text_written]
    exact Nat.le_max_right _ _
  short := Nat.max_le.mpr ⟨ranges.idxlen, short⟩
  place := ranges.datoff
  datlen := ranges.datlen
  used := ranges.datlenU.trans (by decide)
  state := ranges.isfree.trans (by decide)

/-- Only the bytes of the record are written. -/
theorem bytes_writeRecord (valid : r.Readable) (small : v ≤ ptrMax) {i : ℕ}
    (outside : i < offset ∨ offset + r.extent ≤ i) :
    (writeRecord f offset r v).bytes i = f.bytes i := by
  have lead := length_lead valid small
  have line := valid.length_line
  unfold IndexRec.extent at outside
  unfold writeRecord
  rw [ByteFile.bytes_pwrite (by omega), ByteFile.bytes_pwrite (by omega)]

theorem scanIdx_idxlen {ptrval idxlen : ℕ} {text : List UInt8}
    (scanned : scanIdx offset ptrval idxlen text = some d) : d.idxlen = idxlen := by
  simp only [scanIdx, Option.bind_eq_bind, Option.bind_eq_some_iff] at scanned
  obtain ⟨_, _, _, _, _, _, _, _, _, _, _, _, _, _, scanned⟩ := scanned
  split_ifs at scanned
  simp only [Option.bind_eq_some_iff] at scanned
  obtain ⟨_, _, _, _, _, _, same⟩ := scanned
  cases same
  rfl

/-- A record that is read stands in the file as a whole. -/
theorem dbReadidx_inside (read : dbReadidx f offset = some d) :
    offset + ptrSz + idxlenSz + d.idxlen ≤ f.size := by
  obtain ⟨ptrval, _, rest⟩ := Option.bind_eq_some_iff.mp read
  dsimp only at rest
  split_ifs at rest
  obtain ⟨idxlen, _, rest⟩ := Option.bind_eq_some_iff.mp rest
  split_ifs at rest with least short
  rw [scanIdx_idxlen rest]
  rw [not_or, not_not] at short
  have whole := short.1
  rw [ByteFile.pread, List.length_map, List.length_range] at whole
  unfold idxlenMin at least
  omega

/-- Whatever record is written, reading where it was written gives it back, and no other byte is
touched. Over an older record that is long enough it stays where that one was, as long as that one. -/
theorem index_record_roundTrips (db : Db) (offset : ℕ) (append : Bool) (ranges : dbd.InRange)
    (noNul : 0 ∉ key) (small : ptrval ≤ ptrMax)
    (short : (dbd.text key).length + 1 ≤ idxlenMax) :
    ∃ d db' r, dbWriteidx db dbd key offset append ptrval = some (0, d, db') ∧
      dbReadidx db'.idx d.idxoff = some r ∧ Restores dbd key ptrval r ∧
      (∀ i, i < d.idxoff ∨ d.idxoff + ptrSz + idxlenSz + r.idxlen ≤ i →
        db'.idx.bytes i = db.idx.bytes i) ∧
      (append = true → d.idxoff = db.idxLen) ∧
      ∀ old, append = false → dbReadidx db.idx offset = some old → dbd.idxlen = old.idxlen →
        (dbd.text key).length + 1 ≤ old.idxlen →
        d.idxoff = offset ∧ r.idxlen = old.idxlen ∧ db'.idx.size = db.idx.size := by
  have readable := ranges.readable noNul short
  generalize place : (if dbd.appends key append then db.idxLen else offset) = at_
  have written := dbWriteidx_eq db dbd key offset append small short
  rw [place] at written
  obtain ⟨pointer, image⟩ := writeRecord_at db.idx at_ readable small
  have back := dbReadidx_of_at readable small pointer image
  refine ⟨_, _, _, written, back, ⟨rfl, rfl, rfl, rfl, rfl, rfl, rfl⟩, ?_, ?_, ?_⟩
  · intro i outside
    apply bytes_writeRecord readable small
    unfold IndexRec.extent
    change i < at_ ∨ at_ + ptrSz + idxlenSz + (dbd.written key).idxlen ≤ i at outside
    omega
  · intro appended
    rw [← place, Dbd.appends, appended]
    rfl
  · intro old inPlace read same fits
    have stays : dbd.appends key append = false := by
      rw [Dbd.appends, inPlace, Bool.false_or, decide_eq_false_iff_not]
      omega
    rw [stays] at place
    subst place
    have kept : (dbd.written key).idxlen = old.idxlen := by
      change max dbd.idxlen ((dbd.text key).length + 1) = _
      omega
    have inside := dbReadidx_inside read
    refine ⟨rfl, kept, size_writeRecord_inside readable small ?_⟩
    unfold IndexRec.extent
    change offset + (ptrSz + (idxlenSz + (dbd.written key).idxlen)) ≤ db.idx.size
    omega

end Codec

/-- A record that is to hold five bytes. -/
def fiveBytes : Dbd := { Dbd.alloc with datlen := 5, datlenU := 5 }

/-- A record whose key has a separator in it and ends in a blank; and in its place, which is longer than
needed, one with a key of one byte. -/
theorem index_record_roundTrips_first : ∃ d db' r d₂ db₂ r₂,
    dbWriteidx Db.fresh fiveBytes [97, 58, 98, 32] 0 true 7 = some (0, d, db') ∧
      d.idxoff = idxBase ∧ dbReadidx db'.idx idxBase = some r ∧ r.idxbuf = [97, 58, 98, 32] ∧
      r.datlen = 5 ∧ r.ptrval = 7 ∧
    dbWriteidx db' { fiveBytes with idxlen := 15 } [98] idxBase false 9 = some (0, d₂, db₂) ∧
      d₂.idxoff = idxBase ∧ dbReadidx db₂.idx idxBase = some r₂ ∧ r₂.idxbuf = [98] ∧
      r₂.idxlen = r.idxlen ∧ r₂.ptrval = 9 ∧ db₂.idx.size = db'.idx.size := by
  have ranges : fiveBytes.InRange := ⟨by decide, by decide, by decide, by decide, by decide⟩
  have noNul : (0 : UInt8) ∉ [97, 58, 98, 32] := by decide
  obtain ⟨d, db', r, written, read, restores, _, place, _⟩ :=
    index_record_roundTrips Db.fresh 0 true ranges noNul (by decide : 7 ≤ ptrMax) (by decide)
  have first : d.idxoff = idxBase := place rfl
  rw [first] at read
  have length : r.idxlen = 15 := by
    have readable := ranges.readable noNul (by decide)
    obtain ⟨pointer, image⟩ := writeRecord_at Db.fresh.idx idxBase readable (by decide : 7 ≤ ptrMax)
    have back := dbReadidx_of_at readable (by decide) pointer image
    cases written.symm.trans
      (dbWriteidx_eq Db.fresh fiveBytes [97, 58, 98, 32] 0 true (by decide) (by decide))
    cases read.symm.trans back
    rfl
  have ranges₂ : ({ fiveBytes with idxlen := 15 } : Dbd).InRange :=
    ⟨by decide, by decide, by decide, by decide, by decide⟩
  obtain ⟨d₂, db₂, r₂, written₂, read₂, restores₂, _, _, again⟩ :=
    index_record_roundTrips db' idxBase false ranges₂ (by decide : (0 : UInt8) ∉ [98])
      (by decide : 9 ≤ ptrMax) (by decide)
  obtain ⟨stays, kept, size⟩ := again r rfl read length.symm (by rw [length]; decide)
  rw [stays] at read₂
  exact ⟨d, db', r, d₂, db₂, r₂, written, first, read, restores.idxbuf, restores.datlen, restores.ptrval,
    written₂, stays, read₂, restores₂.idxbuf, kept, restores₂.ptrval, size⟩

end BloomServer
