import WsServer.Base.Lines
import WsServer.CyclicLog

/-! A record in the ring is whole where its three pieces fall into one stretch of the file. The
code decides for each of them by itself whether it still fits in front of the end. -/
namespace WsServer
open Interaction

/-- A piece in the ring, as the file and the offset behind it. -/
def ringPut (x : CText × ℕ) (data : CText) : CText × ℕ :=
  if data = [] then x
  else
    (ByteFile.write (Char.ofNat 0) x.1 (ringStart x.1.length x.2 data.length) data,
      ringEnd x.1.length x.2 data.length)

variable {l : Logger} {file data header text : CText} {offset : ℕ}

/-- The pieces of a record go through the ring one by one. -/
theorem writePieces_ring {write : ℕ → WriteIO} (hio : ∀ i, write i = .good)
    (pieces : List CText) : ∀ (i : ℕ) (l : Logger) (x : CText × ℕ), l.Ring x.1 x.2 →
      (writePieces write i pieces l).1.Ring (pieces.foldl ringPut x).1
        (pieces.foldl ringPut x).2 := by
  induction pieces with
  | nil =>
    intro i l x h
    exact h
  | cons piece rest ih =>
    intro i l x h
    apply ih (i+1)
    rw [hio]
    by_cases hpiece : piece = []
    · rw [hpiece, writeCyclic_nil h, ringPut, if_pos rfl]
      exact h
    · rw [writeCyclic_eq h hpiece, ringPut, if_neg hpiece]
      exact h.afterPiece piece

/-! ### One stretch -/

theorem ringCapacity_of_le {size len : ℕ} (h : len ≤ max 4096 size) :
    ringCapacity size len = max 4096 size := Nat.max_eq_left h

/-- A piece that fits in front of the end. -/
theorem ringPut_fits (hbelow : offset < max 4096 file.length)
    (hfits : offset+data.length ≤ max 4096 file.length) :
    ringPut (file, offset) data = (ByteFile.write (Char.ofNat 0) file offset data,
      if max 4096 file.length ≤ offset+data.length then 0 else offset+data.length) := by
  by_cases hdata : data = []
  · subst hdata
    rw [ringPut, if_pos rfl, ByteFile.write_nil, List.length_nil, Nat.add_zero,
      if_neg (Nat.not_le.mpr hbelow)]
  · have hcapacity : ringCapacity file.length data.length = max 4096 file.length :=
      ringCapacity_of_le (by omega)
    have hstart : ringStart file.length offset data.length = offset := by
      rw [ringStart, hcapacity, if_neg (Nat.not_lt.mpr hfits)]
    rw [ringPut, if_neg hdata]
    simp only [ringEnd, hstart, hcapacity]

/-- One that does not fit is written at the beginning. -/
theorem ringPut_wraps (hbelow : offset < max 4096 file.length)
    (hwraps : max 4096 file.length < offset+data.length)
    (hlen : data.length ≤ max 4096 file.length) :
    ringPut (file, offset) data = ringPut (file, 0) data := by
  have hcapacity : ringCapacity file.length data.length = max 4096 file.length :=
    ringCapacity_of_le hlen
  have hoffset : ringStart file.length offset data.length = 0 := by
    rw [ringStart, hcapacity, if_pos hwraps]
  have hzero : ringStart file.length 0 data.length = 0 := by
    rw [ringStart]
    split_ifs <;> rfl
  have hdata : data ≠ [] := by
    intro hnil
    rw [hnil, List.length_nil] at hwraps
    omega
  simp only [ringPut, if_neg hdata, ringEnd, hoffset, hzero]

/-- A write below the capacity does not change it. -/
theorem capacity_write (hinside : offset ≤ file.length)
    (hfits : offset+data.length ≤ max 4096 file.length) :
    max 4096 (ByteFile.write (Char.ofNat 0) file offset data).length = max 4096 file.length := by
  rw [ByteFile.length_write _ hinside]
  omega

/-- Pieces that all fit in front of the end are written as one. -/
theorem foldl_ringPut_fits (pieces : List CText) : ∀ (file : CText) (offset : ℕ),
    offset ≤ file.length → offset < max 4096 file.length →
      offset+pieces.flatten.length ≤ max 4096 file.length →
        pieces.foldl ringPut (file, offset) =
          (ByteFile.write (Char.ofNat 0) file offset pieces.flatten,
            if max 4096 file.length ≤ offset+pieces.flatten.length then 0
            else offset+pieces.flatten.length) := by
  induction pieces with
  | nil =>
    intro file offset _ hbelow _
    rw [List.flatten_nil, ByteFile.write_nil, List.length_nil, Nat.add_zero,
      if_neg (Nat.not_le.mpr hbelow)]
    rfl
  | cons piece rest ih =>
    intro file offset hinside hbelow hfits
    rw [List.flatten_cons, List.length_append] at hfits
    have hpiece : offset+piece.length ≤ max 4096 file.length := by omega
    have hcapacity := capacity_write hinside hpiece
    have hlength := ByteFile.length_write (Char.ofNat 0) hinside piece
    rw [List.foldl_cons, ringPut_fits hbelow hpiece, List.flatten_cons,
      ← ByteFile.write_write _ hinside, List.length_append]
    by_cases hends : max 4096 file.length ≤ offset+piece.length
    · -- nothing is left to write
      have hrest : rest.flatten = [] := List.length_eq_zero_iff.mp (by omega)
      have hzero : 0+rest.flatten.length = 0 := by rw [hrest, List.length_nil]
      rw [if_pos hends, ih _ 0 (Nat.zero_le _) (by omega) (by omega), hzero, ite_self,
        if_pos (by omega), hrest, ByteFile.write_nil, ByteFile.write_nil]
    · rw [if_neg hends, ih _ _ (by omega) (by omega) (by omega), hcapacity, Nat.add_assoc]

/-- The pieces of a record: where its payload is empty it makes no difference. -/
def recordPieces (header text : CText) : List CText := [header, text, ['\n']]

theorem flatten_recordPieces (header text : CText) :
    (recordPieces header text).flatten = header ++ text ++ ['\n'] := by
  simp only [recordPieces, List.flatten_cons, List.flatten_nil, List.append_nil,
    List.append_assoc]

/-- A record is written in one stretch where it fits in front of the end, and where its header
does not. -/
theorem one_stretch (hinside : offset ≤ file.length) (hbelow : offset < max 4096 file.length)
    (hlen : (header ++ text ++ ['\n']).length ≤ max 4096 file.length)
    (hwhole : offset+(header ++ text ++ ['\n']).length ≤ max 4096 file.length ∨
      max 4096 file.length < offset+header.length) :
    ∃ start, start ≤ file.length ∧ ((recordPieces header text).foldl ringPut (file, offset)).1 =
      ByteFile.write (Char.ofNat 0) file start (header ++ text ++ ['\n']) := by
  have hstretch (start : ℕ) (hstart : start ≤ file.length)
      (hbelow : start < max 4096 file.length)
      (hfits : start+(header ++ text ++ ['\n']).length ≤ max 4096 file.length) :
      ((recordPieces header text).foldl ringPut (file, start)).1 =
        ByteFile.write (Char.ofNat 0) file start (header ++ text ++ ['\n']) := by
    rw [← flatten_recordPieces] at hfits ⊢
    rw [foldl_ringPut_fits _ file start hstart hbelow hfits]
  rcases hwhole with hfits | hwraps
  · exact ⟨offset, hinside, hstretch offset hinside hbelow hfits⟩
  · -- the header wraps, and then the whole record fits
    have hheader : header.length ≤ max 4096 file.length := by
      rw [List.length_append, List.length_append] at hlen
      omega
    have hzero := hstretch 0 (Nat.zero_le _) (by omega) (by omega)
    refine ⟨0, Nat.zero_le _, ?_⟩
    simp only [recordPieces, List.foldl_cons] at hzero ⊢
    rw [ringPut_wraps hbelow hwraps hheader]
    exact hzero

/-! ### Torn records -/

/-- What is written at the beginning of a file stands in front of the rest of it. -/
theorem write_zero (file data : CText) :
    ByteFile.write (Char.ofNat 0) file 0 data = data ++ file.drop data.length := by
  rw [ByteFile.write_inside _ (Nat.zero_le _), List.take_zero, List.nil_append, Nat.zero_add]

/-- A torn record: its newline, or its payload with it, stands at the beginning of the file,
its header further behind. -/
theorem torn_in_ring (hinside : offset ≤ file.length) (hbelow : offset < max 4096 file.length)
    (hlen : (header ++ text ++ ['\n']).length ≤ max 4096 file.length)
    (hheader : header ≠ [])
    (htorn : max 4096 file.length < offset+(header ++ text ++ ['\n']).length)
    (hfits : offset+header.length ≤ max 4096 file.length) :
    (∃ n, ((recordPieces header text).foldl ringPut (file, offset)).1 =
      text ++ '\n' :: (ByteFile.write (Char.ofNat 0) file offset header).drop n) ∨
    ∃ n, ((recordPieces header text).foldl ringPut (file, offset)).1 =
      '\n' :: (ByteFile.write (Char.ofNat 0) file offset (header ++ text)).drop n := by
  have hheader' : 0 < header.length := List.length_pos_iff.mpr hheader
  have hcapacity := capacity_write hinside hfits
  have hlength := ByteFile.length_write (Char.ofNat 0) hinside header
  simp only [List.length_append, List.length_singleton] at hlen htorn
  simp only [recordPieces, List.foldl_cons, List.foldl_nil]
  rw [ringPut_fits hbelow hfits]
  -- the payload and the newline at the beginning
  have hbeginning : ([text, ['\n']].foldl ringPut
      (ByteFile.write (Char.ofNat 0) file offset header, 0)).1 = text ++ '\n' ::
        (ByteFile.write (Char.ofNat 0) file offset header).drop (text.length+1) := by
    rw [foldl_ringPut_fits _ _ 0 (Nat.zero_le _) (by omega)
      (by simp only [List.flatten_cons, List.flatten_nil, List.length_append, List.append_nil,
        List.length_singleton]; omega), write_zero]
    simp
  simp only [List.foldl_cons, List.foldl_nil] at hbeginning
  by_cases hends : max 4096 file.length ≤ offset+header.length
  · rw [if_pos hends]
    exact Or.inl ⟨_, hbeginning⟩
  · rw [if_neg hends]
    by_cases hwraps : max 4096 file.length < offset+header.length+text.length
    · have htext : ringPut (ByteFile.write (Char.ofNat 0) file offset header,
          offset+header.length) text =
            ringPut (ByteFile.write (Char.ofNat 0) file offset header, 0) text :=
        ringPut_wraps (by omega) (by omega) (by omega)
      rw [htext]
      exact Or.inl ⟨_, hbeginning⟩
    · -- the payload fills the ring, and the newline alone is left
      have hboth : offset+(header ++ text).length ≤ max 4096 file.length := by
        rw [List.length_append]
        omega
      have hcapacity' := capacity_write hinside hboth
      have htext : ringPut (ByteFile.write (Char.ofNat 0) file offset header,
          offset+header.length) text =
            (ByteFile.write (Char.ofNat 0) file offset (header ++ text), 0) := by
        rw [ringPut_fits (by omega) (by omega), if_pos (by omega), ByteFile.write_write _ hinside]
      have hnewline : (ringPut (ByteFile.write (Char.ofNat 0) file offset (header ++ text), 0)
          ['\n']).1 =
            '\n' :: (ByteFile.write (Char.ofNat 0) file offset (header ++ text)).drop 1 := by
        rw [ringPut_fits (by omega) (by rw [List.length_singleton]; omega), write_zero]
        rfl
      rw [htext]
      exact Or.inr ⟨1, hnewline⟩

/-! ### No record in a torn file -/

/-- The newlines of a text that holds a record. -/
theorem count_of_infix {u v file : CText} (h : u ++ (header ++ text ++ ['\n']) ++ v = file) :
    u.count '\n'+text.count '\n'+1+v.count '\n' ≤ file.count '\n' := by
  rw [← h]
  simp only [List.count_append, List.count_singleton_self]
  omega

theorem payload_first_torn {rest : CText} (hne : header ≠ []) (hrest : '\n' ∉ rest) :
    ¬ header ++ text ++ ['\n'] <:+: text ++ '\n' :: rest := by
  rintro ⟨u, v, h⟩
  have hcount := count_of_infix h
  rw [List.count_append, List.count_cons_self, List.count_eq_zero_of_not_mem hrest] at hcount
  have hv : '\n' ∉ v := List.count_eq_zero.mp (by omega)
  -- the newline of the record is the last one of the file
  have hlast : u ++ (header ++ text) ++ '\n' :: v = text ++ '\n' :: rest := by
    rw [← h]
    simp only [List.append_assoc, List.singleton_append]
  have hlength := congrArg List.length (Lines.append_cons_inj_last hlast hv hrest).1
  have hpos : 0 < header.length := List.length_pos_iff.mpr hne
  simp only [List.length_append] at hlength
  omega

theorem newline_first_torn {rest : CText} (hne : header ≠ []) (hheader : '\n' ∉ header)
    (hrest : rest.count '\n' ≤ text.count '\n') :
    ¬ header ++ text ++ ['\n'] <:+: '\n' :: rest := by
  rintro ⟨u, v, h⟩
  have hcount := count_of_infix h
  rw [List.count_cons_self] at hcount
  have hu : '\n' ∉ u := List.count_eq_zero.mp (by omega)
  cases u with
  | cons c u =>
    have hc : c = '\n' := (List.cons.inj h).1
    exact hu (hc ▸ List.mem_cons_self)
  | nil =>
    obtain ⟨c, header', rfl⟩ := List.exists_cons_of_ne_nil hne
    have hc : c = '\n' := (List.cons.inj h).1
    exact hheader (hc ▸ List.mem_cons_self)

/-- A record without its payload, among blanks. -/
theorem dropped_payload {rest : CText} (hne : header ≠ []) (hheader : ' ' ∉ header)
    (htext : text ≠ []) (hrest : '\n' ∉ rest) (hnewline : '\n' ∉ header) (n : ℕ) :
    ¬ header ++ text ++ ['\n'] <:+: List.replicate n ' ' ++ header ++ '\n' :: rest := by
  rintro ⟨u, v, h⟩
  have hcount := count_of_infix h
  have hblanks : '\n' ∉ List.replicate n ' ' ++ header := by
    rw [List.mem_append, List.mem_replicate]
    rintro (⟨-, heq⟩ | hmem)
    · exact absurd heq (by decide)
    · exact hnewline hmem
  rw [List.count_append, List.count_eq_zero_of_not_mem hblanks, List.count_cons_self,
    List.count_eq_zero_of_not_mem hrest] at hcount
  have hv : '\n' ∉ v := List.count_eq_zero.mp (by omega)
  have hlast : u ++ (header ++ text) ++ '\n' :: v =
      List.replicate n ' ' ++ header ++ '\n' :: rest := by
    rw [← h]
    simp only [List.append_assoc, List.singleton_append]
  have heq := (Lines.append_cons_inj_last hlast hv hrest).1
  have hlength := congrArg List.length heq
  have hpos : 0 < text.length := List.length_pos_iff.mpr htext
  simp only [List.length_append, List.length_replicate] at hlength
  -- the header begins where there are still blanks
  obtain ⟨c, header', rfl⟩ := List.exists_cons_of_ne_nil hne
  have hc := congrArg (fun cs => cs[u.length]?) heq
  simp only [List.cons_append, List.getElem?_append_right (Nat.le_refl _), Nat.sub_self,
    List.getElem?_cons_zero] at hc
  rw [List.getElem?_append_left (by rw [List.length_replicate]; omega),
    List.getElem?_replicate_of_lt (by omega)] at hc
  exact hheader (Option.some.inj hc ▸ List.mem_cons_self)

/-! ### The calls -/

/-- The log in cyclic mode, with a file of this size and this offset. -/
structure Logger.Cyclic (l : Logger) (size offset : ℕ) : Prop where
  enabled : l.enabled = true
  mode : l.cyclicMode = true
  ring : ∃ file, file.length = size ∧ l.Ring file offset

/-- Whatever stands in a file of this size, at this offset the call leaves its record in one
piece, where the log stays in cyclic mode. -/
def KeepsRecord (size offset : ℕ) (time : UInt64) (malloc : Bool) (call : LogCall) : Prop :=
  ∀ (env : LogEnv) (l : Logger) (dir : Directory), l.Cyclic size offset →
    env.realtimeNs = time → env.malloc = malloc → (∀ i, env.write i = .good) →
      ∃ l' dir' es, call.perform env l dir = some (l', dir', es) ∧
        (l'.cyclicMode = true → ∃ file, l'.fp = some file ∧ call.record time <:+: file)

/-- Memory for the payload, where it takes some. -/
def LogCall.HasMemory (malloc : Bool) : LogCall → Prop
  | .write _ _ => True
  | .printf _ message => message = [] ∨ malloc = true

theorem sent_of_memory {malloc : Bool} {call : LogCall} (h : call.HasMemory malloc) :
    call.sent malloc = call.payload := by
  cases call with
  | write kind payload => rfl
  | printf kind message =>
    rcases h with rfl | rfl
    · exact ite_self []
    · rfl

theorem sent_of_dropped {malloc : Bool} {call : LogCall} (h : ¬ call.HasMemory malloc) :
    call.sent malloc = [] ∧ call.payload ≠ [] := by
  cases call with
  | write kind payload => exact absurd trivial h
  | printf kind message =>
    obtain ⟨hmessage, hmalloc⟩ := not_or.mp h
    exact ⟨if_neg hmalloc, hmessage⟩

theorem ringPut_nil (x : CText × ℕ) : ringPut x [] = x := if_pos rfl

theorem foldl_pieces (env : LogEnv) (call : LogCall) (x : CText × ℕ) :
    (call.pieces env).foldl ringPut x =
      (recordPieces (logHeader env.realtimeNs call.kind) (call.sent env.malloc)).foldl
        ringPut x := by
  have hskip (header text : CText) (p : Prop) [Decidable p] (hp : ¬ p → text = []) :
      (if p then [header, text, ['\n']] else [header, ['\n']]).foldl ringPut x =
        (recordPieces header text).foldl ringPut x := by
    split_ifs with h
    · rfl
    · rw [hp h]
      simp only [recordPieces, List.foldl_cons, List.foldl_nil, ringPut_nil]
  cases call with
  | write kind payload =>
    cases payload with
    | none => exact hskip _ [] False (fun _ => rfl)
    | some text =>
      exact hskip _ text _ (fun h => List.length_eq_zero_iff.mp (Nat.eq_zero_of_not_pos h))
  | printf kind message =>
    cases hmalloc : env.malloc with
    | false =>
      simp only [LogCall.pieces, LogCall.sent, hmalloc, Bool.false_eq_true, and_false]
      exact hskip _ [] False (fun _ => rfl)
    | true =>
      simp only [LogCall.pieces, LogCall.sent, hmalloc, and_true]
      exact hskip _ message _ (fun h => List.length_eq_zero_iff.mp (Nat.eq_zero_of_not_pos h))

theorem writeTo_ring {env : LogEnv} (h : l.Ring file offset) (hmode : l.cyclicMode = true)
    (hio : ∀ i, env.write i = .good) (call : LogCall) :
    (call.writeTo env l).1.Ring
      ((recordPieces (logHeader env.realtimeNs call.kind) (call.sent env.malloc)).foldl
        ringPut (file, offset)).1
      ((recordPieces (logHeader env.realtimeNs call.kind) (call.sent env.malloc)).foldl
        ringPut (file, offset)).2 := by
  rw [← foldl_pieces, LogCall.writeTo, if_pos hmode]
  exact writePieces_ring hio (call.pieces env) 0 l (file, offset) h

/-- In cyclic mode a call sends its pieces through the ring. -/
theorem perform_ring {env : LogEnv} {dir dir' : Directory} {call : LogCall} {l' : Logger}
    {es : List LogEvent} (h : l.Ring file offset) (henabled : l.enabled = true)
    (hio : ∀ i, env.write i = .good) (hcall : call.perform env l dir = some (l', dir', es))
    (hmode : l'.cyclicMode = true) :
    l'.fp = some ((recordPieces (logHeader env.realtimeNs call.kind)
      (call.sent env.malloc)).foldl ringPut (file, offset)).1 := by
  rw [perform_eq henabled h.fp] at hcall
  obtain ⟨⟨l₁, dir₁, es₁⟩, hmaintenance, heq⟩ := Option.map_eq_some_iff.mp hcall
  obtain ⟨rfl, -, -⟩ := heq
  rw [(writeTo_sameMode env call l₁).mode] at hmode
  have hring := (h.maintain hmaintenance hmode).1
  exact (writeTo_ring hring hmode hio call).fp

/-- A ring of blanks, on which no maintenance is due. -/
def blankRing (size offset : ℕ) : Logger :=
  { freshRing 1 (List.replicate size ' ') offset with
    cyclicCapacityBytes := ((max 4096 size : ℕ) : Int) }

theorem blankRing_ring {size : ℕ} (hinside : offset ≤ size) (hbelow : offset < max 4096 size) :
    (blankRing size offset).Ring (List.replicate size ' ') offset := by
  refine ⟨rfl, ?_, rfl, ?_, ?_⟩
  all_goals rw [List.length_replicate]
  · rfl
  · exact hinside
  · exact hbelow

def blankEnv (time : UInt64) (malloc : Bool) : LogEnv where
  maintenance := { diskWith 10 with monotonicMs := 0 }
  realtimeNs := time
  malloc := malloc
  fseeko := true
  write _ := .good

theorem maintenance_blank {size : ℕ} (time : UInt64) (malloc : Bool) (dir : Directory) :
    maybeRunMaintenanceLocked (blankEnv time malloc).maintenance (blankRing size offset) dir =
      some (blankRing size offset, dir, []) := rfl

theorem length_blanks (size : ℕ) : (List.replicate size ' ').length = size :=
  List.length_replicate

/-- A write over blanks. -/
theorem write_blanks {size : ℕ} (hinside : offset ≤ size) (data : CText) :
    ByteFile.write (Char.ofNat 0) (List.replicate size ' ') offset data =
      List.replicate offset ' ' ++ data ++ List.replicate (size-(offset+data.length)) ' ' := by
  rw [ByteFile.write_inside _ (by rw [length_blanks]; exact hinside),
    List.take_replicate, Nat.min_eq_left hinside, List.drop_replicate]

theorem count_drop_blanks {size : ℕ} (hinside : offset ≤ size) (data : CText) (n : ℕ) :
    ((ByteFile.write (Char.ofNat 0) (List.replicate size ' ') offset data).drop n).count '\n' ≤
      data.count '\n' := by
  have hblanks (n : ℕ) : (List.replicate n ' ').count '\n' = 0 := by
    rw [List.count_replicate]
    rfl
  apply le_trans ((List.drop_sublist n _).count_le '\n')
  rw [write_blanks hinside, List.count_append, List.count_append, hblanks, hblanks,
    Nat.zero_add, Nat.add_zero]

/-- On blanks a torn record is nowhere in the file. -/
theorem torn_blanks {size : ℕ} (hinside : offset ≤ size) (hbelow : offset < max 4096 size)
    (hlen : (header ++ text ++ ['\n']).length ≤ max 4096 size)
    (hne : header ≠ []) (hheader : '\n' ∉ header)
    (htorn : max 4096 size < offset+(header ++ text ++ ['\n']).length)
    (hfits : offset+header.length ≤ max 4096 size) :
    ¬ header ++ text ++ ['\n'] <:+:
      ((recordPieces header text).foldl ringPut (List.replicate size ' ', offset)).1 := by
  have hinside' := hinside
  rw [← length_blanks size] at hinside' hbelow hlen htorn hfits
  have hshape := torn_in_ring hinside' hbelow hlen hne htorn hfits
  rcases hshape with ⟨n, hfile⟩ | ⟨n, hfile⟩
  · rw [hfile]
    apply payload_first_torn hne
    have hle := count_drop_blanks hinside header n
    rw [List.count_eq_zero_of_not_mem hheader] at hle
    exact List.count_eq_zero.mp (Nat.le_zero.mp hle)
  · rw [hfile]
    apply newline_first_torn hne hheader
    have hle := count_drop_blanks hinside (header ++ text) n
    rw [List.count_append, List.count_eq_zero_of_not_mem hheader, Nat.zero_add] at hle
    exact hle

/-- Nor is a record whose payload is not written. -/
theorem dropped_blanks {size : ℕ} (hinside : offset ≤ size) (hbelow : offset < max 4096 size)
    (hlen : (header ++ text ++ ['\n']).length ≤ max 4096 size)
    (hne : header ≠ []) (hheader : '\n' ∉ header) (hblank : ' ' ∉ header) (htext : text ≠ []) :
    ¬ header ++ text ++ ['\n'] <:+:
      ((recordPieces header []).foldl ringPut (List.replicate size ' ', offset)).1 := by
  have hshort : (header ++ [] ++ ['\n']).length ≤ max 4096 size := by
    simp only [List.length_append, List.length_nil] at hlen ⊢
    omega
  have hsize := length_blanks size
  by_cases hwhole : offset+(header ++ [] ++ ['\n']).length ≤ max 4096 size ∨
      max 4096 size < offset+header.length
  · have hinside' := hinside
    rw [← hsize] at hinside' hbelow hshort hwhole
    obtain ⟨start, hstart, hfile⟩ := one_stretch hinside' hbelow hshort hwhole
    rw [hfile, write_blanks (by rw [← hsize]; exact hstart)]
    have hline (n : ℕ) : List.replicate start ' ' ++ (header ++ [] ++ ['\n']) ++
        List.replicate n ' ' =
          List.replicate start ' ' ++ header ++ '\n' :: List.replicate n ' ' := by
      simp only [List.append_nil, List.append_assoc, List.singleton_append]
    rw [hline]
    apply dropped_payload hne hblank htext _ hheader
    rw [List.mem_replicate]
    exact fun h => absurd h.2 (by decide)
  · obtain ⟨htorn, hfits⟩ := not_or.mp hwhole
    have hinside' := hinside
    rw [← hsize] at hinside' hbelow hshort htorn hfits
    -- the newline alone is at the beginning
    have hshape := torn_in_ring hinside' hbelow hshort hne (not_le.mp htorn) (not_lt.mp hfits)
    simp only [List.append_nil, List.nil_append, or_self] at hshape
    obtain ⟨n, hfile⟩ := hshape
    rw [hfile]
    apply newline_first_torn hne hheader
    have hle := count_drop_blanks hinside header n
    rw [List.count_eq_zero_of_not_mem hheader] at hle
    exact le_trans hle (Nat.zero_le _)

/-- The exact condition under which a call leaves its record whole. -/
theorem keeps_record_iff {size offset : ℕ} {call : LogCall} {time : UInt64} {malloc : Bool}
    (hinside : offset ≤ size) (hbelow : offset < max 4096 size)
    (hlen : (call.record time).length ≤ max 4096 size) :
    KeepsRecord size offset time malloc call ↔ call.HasMemory malloc ∧
      (offset+(call.record time).length ≤ max 4096 size ∨
        max 4096 size < offset+(logHeader time call.kind).length) := by
  constructor
  · -- on blanks nothing but the call itself can have put the record into the file
    intro hkeeps
    have hring := blankRing_ring hinside hbelow
    have hcyclic : (blankRing size offset).Cyclic size offset :=
      ⟨rfl, rfl, _, length_blanks size, hring⟩
    obtain ⟨l', dir', es, hcall, hfile⟩ :=
      hkeeps (blankEnv time malloc) (blankRing size offset) [] hcyclic rfl rfl (fun _ => rfl)
    have hmode : l'.cyclicMode = true := by
      rw [perform_eq rfl hring.fp, maintenance_blank] at hcall
      obtain rfl := (Prod.mk.inj (Option.some.inj hcall)).1
      exact (writeTo_sameMode _ call (blankRing size offset)).mode
    obtain ⟨file, hfp, hrecord⟩ := hfile hmode
    have hio (i : ℕ) : (blankEnv time malloc).write i = .good := rfl
    have hblanks := perform_ring hring rfl hio hcall hmode
    have htime : (blankEnv time malloc).realtimeNs = time := rfl
    have hmalloc : (blankEnv time malloc).malloc = malloc := rfl
    rw [htime, hmalloc] at hblanks
    obtain rfl := Option.some.inj (hfp.symm.trans hblanks)
    have hne := logHeader_ne_nil time call.kind
    have hnewline := newline_notMem_logHeader time call.kind
    have hmemory : call.HasMemory malloc := by
      by_contra hdropped
      obtain ⟨hsent, hpayload⟩ := sent_of_dropped hdropped
      rw [hsent] at hrecord
      have hblank := blank_notMem_logHeader time call.kind
      exact dropped_blanks hinside hbelow hlen hne hnewline hblank hpayload hrecord
    refine ⟨hmemory, ?_⟩
    by_contra htorn
    obtain ⟨htorn, hfits⟩ := not_or.mp htorn
    rw [sent_of_memory hmemory] at hrecord
    exact torn_blanks hinside hbelow hlen hne hnewline (not_le.mp htorn) (not_lt.mp hfits) hrecord
  · rintro ⟨hmemory, hwhole⟩ env l dir hl rfl rfl hio
    obtain ⟨file, rfl, hring⟩ := hl.ring
    have hsettled : l.Settled :=
      (Logger.SameMode.refl l).settled hl.enabled ⟨file, hring.fp⟩ hl.mode
    obtain ⟨⟨l', dir', es⟩, hcall⟩ := Option.isSome_iff_exists.mp
      (perform_isSome hsettled env dir call)
    refine ⟨l', dir', es, hcall, ?_⟩
    intro hmode
    have hfile := perform_ring hring hl.enabled hio hcall hmode
    rw [sent_of_memory hmemory] at hfile
    obtain ⟨start, hstart, heq⟩ := one_stretch hring.inside hring.below hlen hwhole
    refine ⟨_, hfile, ?_⟩
    rw [heq]
    exact ByteFile.infix_write _ hstart _

theorem keeps_record_iff_empty :
    (0 ≤ 0 ∧ 0 < max 4096 0 ∧ ((LogCall.write .wsRx (some ['x'])).record 1).length ≤ max 4096 0) ∧
      (KeepsRecord 0 0 1 true (.write .wsRx (some ['x'])) ↔
        (LogCall.write .wsRx (some ['x'])).HasMemory true ∧
          (0+((LogCall.write .wsRx (some ['x'])).record 1).length ≤ max 4096 0 ∨
            max 4096 0 < 0+(logHeader 1 .wsRx).length)) :=
  ⟨⟨by decide, by decide, by decide⟩, keeps_record_iff (by decide) (by decide) (by decide)⟩

/-! ### A torn record -/

/-- A long client text and a short one behind it. -/
def longCall : LogCall := .write .wsRx (some (List.replicate 4043 'a'))
def shortCall : LogCall := .write .wsRx (some ['x'])

/-- What begins with the only character of its kind and has no room behind it is not there. -/
theorem only_char_torn {c : Char} {before after rest file : CText} (hbefore : c ∉ before)
    (hafter : c ∉ after) (hlength : after.length < rest.length) :
    ¬ file ++ c :: rest <:+: before ++ c :: after := by
  rintro ⟨u, v, h⟩
  have hcut : before ++ c :: after = (u ++ file) ++ c :: (rest ++ v) := by
    rw [← h]
    simp only [List.append_assoc, List.cons_append]
  have hrest := ((List.append_cons_inj_of_notMem hbefore hafter).mp hcut).2.2
  have hlengths := congrArg List.length hrest
  rw [List.length_append] at hlengths
  omega

/-- The file behind them: the header of the second record ends where the ring does. -/
def tornFile : CText :=
  ['x', '\n'] ++ (longCall.record 1111111111111111111 ++
    logHeader 1111111111111111112 .wsRx).drop 2

theorem longCall_record : longCall.record 1111111111111111111 =
    logHeader 1111111111111111111 .wsRx ++ List.replicate 4043 'a' ++ ['\n'] := by
  simp only [LogCall.record, longCall, LogCall.kind, LogCall.payload, Option.getD_some]

theorem longCall_length : (longCall.record 1111111111111111111).length = 4070 := by
  have hheader : (logHeader 1111111111111111111 .wsRx).length = 26 := by decide
  rw [longCall_record, List.length_append, List.length_append, hheader, List.length_replicate,
    List.length_singleton]

theorem long_in_ring :
    (recordPieces (logHeader 1111111111111111111 .wsRx) (List.replicate 4043 'a')).foldl
      ringPut ([], 0) = (longCall.record 1111111111111111111, 4070) := by
  have hflatten : (recordPieces (logHeader 1111111111111111111 .wsRx)
      (List.replicate 4043 'a')).flatten = longCall.record 1111111111111111111 :=
    (flatten_recordPieces _ _).trans longCall_record.symm
  have hlength := longCall_length
  rw [foldl_ringPut_fits _ [] 0 (Nat.zero_le _) (by decide)
    (by rw [hflatten, hlength]; decide), hflatten, hlength, write_zero, List.drop_nil,
    List.append_nil]
  rfl

theorem short_in_ring :
    ((recordPieces (logHeader 1111111111111111112 .wsRx) ['x']).foldl ringPut
      (longCall.record 1111111111111111111, 4070)).1 = tornFile := by
  have hheader : (logHeader 1111111111111111112 .wsRx).length = 26 := by decide
  have hlength := longCall_length
  have hboth : (longCall.record 1111111111111111111 ++
      logHeader 1111111111111111112 .wsRx).length = 4096 := by
    rw [List.length_append, hlength, hheader]
  have hend : ringPut (longCall.record 1111111111111111111, 4070)
      (logHeader 1111111111111111112 .wsRx) =
        (longCall.record 1111111111111111111 ++ logHeader 1111111111111111112 .wsRx, 0) := by
    rw [ringPut_fits (by rw [hlength]; decide) (by rw [hlength, hheader]; decide), hheader,
      hlength, if_pos (by decide), ← hlength, ByteFile.write_end]
  have hbeginning := foldl_ringPut_fits [['x'], ['\n']] (longCall.record 1111111111111111111 ++
    logHeader 1111111111111111112 .wsRx) 0 (Nat.zero_le _) (by rw [hboth]; decide)
    (by rw [hboth]; decide)
  rw [recordPieces, List.foldl_cons, hend, hbeginning, write_zero]
  rfl

/-- The last digit of the time stands only in the header at the end. -/
theorem tornFile_torn : ¬ shortCall.record 1111111111111111112 <:+: tornFile := by
  have hrecord : shortCall.record 1111111111111111112 =
      "111111111111111111".toList ++ '2' :: ",WS_RX,x\n".toList := by decide
  have hlong : '2' ∉ longCall.record 1111111111111111111 := by
    rw [longCall_record, List.mem_append, List.mem_append, List.mem_replicate]
    decide
  have htorn : tornFile = ['x', '\n'] ++ (longCall.record 1111111111111111111).drop 2 ++
      "111111111111111111".toList ++ '2' :: ",WS_RX,".toList := by
    have hheader : logHeader 1111111111111111112 .wsRx =
        "111111111111111111".toList ++ '2' :: ",WS_RX,".toList := by decide
    rw [tornFile, List.drop_append_of_le_length (by rw [longCall_length]; decide), hheader]
    simp only [List.append_assoc]
  rw [hrecord, htorn]
  apply only_char_torn
  · simp only [List.mem_append, not_or]
    exact ⟨⟨by decide, fun h => hlong (List.mem_of_mem_drop h)⟩, by decide⟩
  · decide
  · decide

theorem perform_not_due {env : LogEnv} (h : l.Ring file offset) (henabled : l.enabled = true)
    (hdue : env.maintenance.monotonicMs < l.nextMaintenanceMs) (dir : Directory)
    (call : LogCall) : call.perform env l dir =
      some ((call.writeTo env l).1, dir, (call.writeTo env l).2) := by
  rw [perform_eq henabled h.fp, maintenance_not_due henabled h.fp hdue]
  rfl

/-- The log is opened on a full disk, where it is in cyclic mode from the first call on. -/
theorem long_performed :
    ∃ l es, longCall.perform (goodEnv 10 1111111111111111111)
        (openedLogger "logs".toList "logs/simple_ws_1.csv".toList) [] = some (l, [], es) ∧
      l.Ring (longCall.record 1111111111111111111) 4070 ∧ (freshRing 10000 [] 0).SameMode l := by
  have hentered : (freshRing 10000 [] 0).Ring [] 0 :=
    ⟨rfl, rfl, rfl, Nat.le_refl 0, by decide⟩
  have hmaintenance : maybeRunMaintenanceLocked (diskWith 10)
      (openedLogger "logs".toList "logs/simple_ws_1.csv".toList) [] =
        some (freshRing 10000 [] 0, [], [.freePercent (some 10)]) := rfl
  have hio (i : ℕ) : (goodEnv 10 1111111111111111111).write i = .good := rfl
  have hring := writeTo_ring hentered rfl hio longCall
  have hsame := writeTo_sameMode (goodEnv 10 1111111111111111111) longCall (freshRing 10000 [] 0)
  -- the pieces are kept from being computed
  have hpieces : recordPieces
      (logHeader (goodEnv 10 1111111111111111111).realtimeNs longCall.kind)
      (longCall.sent (goodEnv 10 1111111111111111111).malloc) =
        recordPieces (logHeader 1111111111111111111 .wsRx) (List.replicate 4043 'a') := by
    simp only [longCall, LogCall.kind, LogCall.sent, Option.getD_some, goodEnv]
  rw [hpieces, long_in_ring] at hring
  refine ⟨_, .freePercent (some 10) :: (longCall.writeTo (goodEnv 10 1111111111111111111)
    (freshRing 10000 [] 0)).2, ?_, hring, hsame⟩
  rw [perform_eq rfl rfl]
  change (maybeRunMaintenanceLocked (diskWith 10)
    (openedLogger "logs".toList "logs/simple_ws_1.csv".toList) []).map _ = _
  rw [hmaintenance]
  rfl

/-- The header of the second record ends where the ring does. -/
theorem record_torn :
    ∃ s os, logMachine.run (openedLogger "logs".toList "logs/simple_ws_1.csv".toList, [])
      [(goodEnv 10 1111111111111111111, longCall),
        (goodEnv 10 1111111111111111112, shortCall)] = some (s, os) ∧
      s.1.cyclicMode = true ∧
      (shortCall.record 1111111111111111112).length ≤ s.1.cyclicCapacityBytes ∧
      s.1.fp = some tornFile ∧ ¬ shortCall.record 1111111111111111112 <:+: tornFile := by
  obtain ⟨l, es, hfirst, hlong, hsame⟩ := long_performed
  -- maintenance is not due for the second call
  have hdue : (goodEnv 10 1111111111111111112).maintenance.monotonicMs < l.nextMaintenanceMs := by
    rw [hsame.next]
    decide
  have hsecond := perform_not_due hlong hsame.enabled hdue [] shortCall
  have hio (i : ℕ) : (goodEnv 10 1111111111111111112).write i = .good := rfl
  have hshort := writeTo_ring hlong hsame.mode hio shortCall
  have hmode := (writeTo_sameMode (goodEnv 10 1111111111111111112) shortCall l).mode
  have hfp : (shortCall.writeTo (goodEnv 10 1111111111111111112) l).1.fp = some tornFile :=
    hshort.fp.trans (congrArg some short_in_ring)
  have hrun : logMachine.run (openedLogger "logs".toList "logs/simple_ws_1.csv".toList, [])
      [(goodEnv 10 1111111111111111111, longCall), (goodEnv 10 1111111111111111112, shortCall)] =
        some (((shortCall.writeTo (goodEnv 10 1111111111111111112) l).1, []),
          es ++ ((shortCall.writeTo (goodEnv 10 1111111111111111112) l).2 ++ [])) := by
    simp only [Machine.run, logMachine, hfirst, hsecond, Option.map_some, Option.bind_some]
  refine ⟨_, _, hrun, hmode.trans hsame.mode, ?_, hfp, tornFile_torn⟩
  have hrecord : (shortCall.record 1111111111111111112).length = 28 := by decide
  rw [hrecord, hshort.capacity]
  omega

end WsServer
