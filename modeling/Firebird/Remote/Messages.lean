import Firebird.Lib.Bytes
import Firebird.Lib.Layout
import Firebird.Lib.Outcome

/-! # The layout of messages (`remote/parser.cpp`, `jrd/par.cpp`)

The messages of a request are laid out twice. `par_message` of the engine counts the offsets of the
fields in a `ULONG`, and a message is at most as long as a `USHORT` can say. `PARSE_messages` of the
remote interface counts them in a `USHORT`.
-/

namespace Firebird.Blr

/-- Why there is no result -/
inductive Stop where
  /-- A byte behind the request is read. -/
  | fault
  /-- `gds_datnotsup` -/
  | datnotsup
  /-- `gds_blktoobig` -/
  | blktoobig
  /-- `PARSE_messages` returns -1. -/
  | minusOne
deriving DecidableEq

/-! ## Types -/

inductive Dtype where
  | text
  | cstring
  | varying
  | short
  | long
  | quad
  | real
  | double
  | sql_date
  | sql_time
  | timestamp
  | blob
  | int64
deriving DecidableEq

/-- `DOUBLE_ALIGN` of the platform -/
inductive Platform where
  | four
  | eight
deriving DecidableEq

/-- `type_alignments` -/
def type_alignments (platform : Platform) : Dtype → ℕ
  | .text => 0
  | .cstring => 0
  | .varying => 2
  | .short => 2
  | .long => 4
  | .quad => 4
  | .real => 4
  | .double => match platform with | .four => 4 | .eight => 8
  | .sql_date => 4
  | .sql_time => 4
  | .timestamp => 4
  | .blob => 4
  | .int64 => 8

/-- `FB_ALIGN` -/
def FB_ALIGN (n b : ℕ) : ℕ := (n + b - 1) / b * b

/-- A descriptor of a field. `dsc_address` is its offset. -/
structure Dsc where
  dsc_dtype : Dtype
  dsc_scale : ℕ
  dsc_length : ℕ
  dsc_sub_type : ℕ
  dsc_address : ℕ
deriving DecidableEq

-- the types of fields in a request
def blr_short : ℕ := 7
def blr_long : ℕ := 8
def blr_quad : ℕ := 9
def blr_float : ℕ := 10
def blr_d_float : ℕ := 11
def blr_sql_date : ℕ := 12
def blr_sql_time : ℕ := 13
def blr_text : ℕ := 14
def blr_text2 : ℕ := 15
def blr_int64 : ℕ := 16
def blr_double : ℕ := 27
def blr_timestamp : ℕ := 35
def blr_varying : ℕ := 37
def blr_varying2 : ℕ := 38
def blr_cstring : ℕ := 40
def blr_cstring2 : ℕ := 41
def blr_blob : ℕ := 261

-- the beginning of a request
def blr_version4 : ℕ := 4
def blr_version5 : ℕ := 5
def blr_begin : ℕ := 2
def blr_message : ℕ := 4

/-- `*blr++` -/
def byte : List UCHAR → Except Stop (ℕ × List UCHAR)
  | [] => .error .fault
  | b :: blr => .ok (b.val, blr)

/-- What a type of fields has behind it in a request, and the length of the field -/
inductive Form where
  /-- A string: its length is in the request, and the field has `extra` bytes more. -/
  | string (dtype : Dtype) (extra : ℕ)
  /-- A string with a text type -/
  | typed (dtype : Dtype) (extra : ℕ)
  /-- A number with a scale -/
  | scaled (dtype : Dtype) (length : ℕ)
  | fixed (dtype : Dtype) (length : ℕ)
deriving DecidableEq

/-! ## The engine -/

/-- `par_word` -/
def par_word (blr : List UCHAR) : Except Stop (ℕ × List UCHAR) := do
  let (low, blr) ← byte blr
  let (high, blr) ← byte blr
  return (high * 256 + low, blr)

/-- The cases of `PAR_desc` -/
def PAR_form (dtype : ℕ) : Option Form :=
  if dtype = blr_text then some (.string .text 0)
  else if dtype = blr_cstring then some (.string .cstring 0)
  else if dtype = blr_varying then some (.string .varying 2)
  else if dtype = blr_text2 then some (.typed .text 0)
  else if dtype = blr_cstring2 then some (.typed .cstring 0)
  else if dtype = blr_varying2 then some (.typed .varying 2)
  else if dtype = blr_short then some (.scaled .short 2)
  else if dtype = blr_long then some (.scaled .long 4)
  else if dtype = blr_int64 then some (.scaled .int64 8)
  else if dtype = blr_quad then some (.scaled .quad 8)
  else if dtype = blr_float then some (.fixed .real 4)
  else if dtype = blr_timestamp then some (.fixed .timestamp 8)
  else if dtype = blr_sql_date then some (.fixed .sql_date 4)
  else if dtype = blr_sql_time then some (.fixed .sql_time 4)
  else if dtype = blr_double ∨ dtype = blr_d_float then some (.fixed .double 8)
  else if dtype = blr_blob then some (.fixed .blob 8)
  else none

/-- `ttype_dynamic` -/
def ttype_dynamic : ℕ := 127

/-- What `PAR_desc` does in a case -/
def PAR_read : Form → List UCHAR → Except Stop (Dsc × List UCHAR)
  | .string dtype extra, blr => do
    let (length, blr) ← par_word blr
    return (⟨dtype, 0, (length + extra) % 65536, ttype_dynamic, 0⟩, blr)
  | .typed dtype extra, blr => do
    let (ttype, blr) ← par_word blr
    let (length, blr) ← par_word blr
    return (⟨dtype, 0, (length + extra) % 65536, ttype, 0⟩, blr)
  | .scaled dtype length, blr => do
    let (scale, blr) ← byte blr
    return (⟨dtype, scale, length, 0, 0⟩, blr)
  | .fixed dtype length, blr => .ok (⟨dtype, 0, length, 0, 0⟩, blr)

/-- `PAR_desc`, without the alignment -/
def PAR_desc (blr : List UCHAR) : Except Stop (Dsc × List UCHAR) := do
  let (dtype, blr) ← byte blr
  match PAR_form dtype with
  | some form => PAR_read form blr
  | none => .error .datnotsup

/-- `MAX_FORMAT_SIZE` -/
def MAX_FORMAT_SIZE : ℕ := 65535

/-- What a message is parsed to -/
structure Message where
  number : ℕ
  fmt_desc : List Dsc
  fmt_length : ℕ
  fmt_net_length : ℕ
deriving DecidableEq

section

variable (platform : Platform)

/-- The loop over the fields in `par_message`: the descriptors, and the `ULONG` behind them -/
def par_fields : ℕ → ℕ → List UCHAR → Except Stop ((List Dsc × ℕ) × List UCHAR)
  | 0, offset, blr => .ok (([], offset), blr)
  | n + 1, offset, blr => do
    let (desc, blr) ← PAR_desc blr
    let alignment := type_alignments platform desc.dsc_dtype
    let offset := if alignment ≠ 0 then FB_ALIGN offset alignment % 2 ^ 32 else offset
    let (behind, blr) ← par_fields n ((offset + desc.dsc_length) % 2 ^ 32) blr
    return (({ desc with dsc_address := offset } :: behind.1, behind.2), blr)

/-- `par_message` behind `blr_message`. The engine has no `fmt_net_length`. -/
def par_message (blr : List UCHAR) : Except Stop (Message × List UCHAR) := do
  let (number, blr) ← byte blr
  let (n, blr) ← par_word blr
  let (fields, blr) ← par_fields platform n 0 blr
  if fields.2 > MAX_FORMAT_SIZE then .error .blktoobig
  else return (⟨number, fields.1, fields.2 % 65536, 0⟩, blr)

end

/-! ## The remote interface -/

/-- The cases of the `switch` in `PARSE_messages` -/
def PARSE_form (op : ℕ) : Option Form :=
  if op = blr_text then some (.string .text 0)
  else if op = blr_varying then some (.string .varying 2)
  else if op = blr_cstring then some (.string .cstring 0)
  else if op = blr_text2 then some (.typed .text 0)
  else if op = blr_varying2 then some (.typed .varying 2)
  else if op = blr_cstring2 then some (.typed .cstring 0)
  else if op = blr_short then some (.scaled .short 2)
  else if op = blr_long then some (.scaled .long 4)
  else if op = blr_int64 then some (.scaled .int64 8)
  else if op = blr_quad then some (.scaled .quad 8)
  else if op = blr_float then some (.fixed .real 4)
  else if op = blr_double ∨ op = blr_d_float then some (.fixed .double 8)
  else if op = blr_timestamp then some (.fixed .timestamp 8)
  else if op = blr_sql_date then some (.fixed .sql_date 4)
  else if op = blr_sql_time then some (.fixed .sql_time 4)
  else none

/-- What `PARSE_messages` does in a case. The lengths are put together in `USHORT`s, and text types in
an `SCHAR`. -/
def PARSE_read : Form → List UCHAR → Except Stop (Dsc × List UCHAR)
  | .string dtype extra, blr => do
    let (low, blr) ← byte blr
    let (high, blr) ← byte blr
    return (⟨dtype, 0, ((low + extra) % 65536 + (high <<< 8)) % 65536, 0, 0⟩, blr)
  | .typed dtype extra, blr => do
    let (scale, blr) ← byte blr
    let (scale', blr) ← byte blr
    let (low, blr) ← byte blr
    let (high, blr) ← byte blr
    return (⟨dtype, (scale + (scale' <<< 8)) % 256,
      ((low + extra) % 65536 + (high <<< 8)) % 65536, 0, 0⟩, blr)
  | .scaled dtype length, blr => do
    let (scale, blr) ← byte blr
    return (⟨dtype, scale, length, 0, 0⟩, blr)
  | .fixed dtype length, blr => .ok (⟨dtype, 0, length, 0, 0⟩, blr)

def PARSE_desc (blr : List UCHAR) : Except Stop (Dsc × List UCHAR) := do
  let (op, blr) ← byte blr
  match PARSE_form op with
  | some form => PARSE_read form blr
  | none => .error .minusOne

/-- What a field adds to `net_length` -/
def netLength (desc : Dsc) : ℕ :=
  if desc.dsc_dtype = .varying then 4 + FB_ALIGN (desc.dsc_length - 2) 4
  else FB_ALIGN desc.dsc_length 4

section

variable (platform : Platform)

/-- The loop over the fields in `PARSE_messages`: the descriptors, and the `USHORT`s `offset` and
`net_length` behind them -/
def PARSE_fields : ℕ → ℕ → ℕ → List UCHAR → Except Stop ((List Dsc × ℕ × ℕ) × List UCHAR)
  | 0, offset, net_length, blr => .ok (([], offset, net_length), blr)
  | count + 1, offset, net_length, blr => do
    let (desc, blr) ← PARSE_desc blr
    let align := type_alignments platform desc.dsc_dtype
    let offset := if align > 1 then FB_ALIGN offset align % 65536 else offset
    let (behind, blr) ← PARSE_fields count ((offset + desc.dsc_length) % 65536)
      ((net_length + netLength desc) % 65536) blr
    return (({ desc with dsc_address := offset } :: behind.1, behind.2), blr)

/-- The loop over the messages, behind `blr_message` -/
def PARSE_message (net_length : ℕ) (blr : List UCHAR) : Except Stop (Message × List UCHAR) := do
  let (msg_number, blr) ← byte blr
  let (low, blr) ← byte blr
  let (high, blr) ← byte blr
  let (fields, blr) ← PARSE_fields platform ((low + (high <<< 8)) % 65536) 0 net_length blr
  return (⟨msg_number, fields.1, fields.2.1, fields.2.2⟩, blr)

end

/-! ## What is left of the request -/

/-- What is left behind a result is at most as long. -/
def Leaves {α : Type} (n : ℕ) (x : Except Stop (α × List UCHAR)) : Prop :=
  ∀ r, x = .ok r → r.2.length ≤ n

section

variable {α β : Type} {n m : ℕ} {blr : List UCHAR}

theorem Leaves.bind {x : Except Stop (α × List UCHAR)}
    {f : α × List UCHAR → Except Stop (β × List UCHAR)} (hx : Leaves n x)
    (hf : ∀ a rest, rest.length ≤ n → Leaves m (f (a, rest))) : Leaves m (x >>= f) := by
  intro r hr
  obtain ⟨⟨a, rest⟩, ha, h⟩ := Outcome.of_bind_eq_ok hr
  exact hf a rest (hx _ ha) r h

theorem leaves_ok (a : α) {rest : List UCHAR} (h : rest.length ≤ n) :
    Leaves n (.ok (a, rest) : Except Stop (α × List UCHAR)) := by
  intro r hr
  cases hr
  exact h

theorem leaves_error (e : Stop) : Leaves n (.error e : Except Stop (α × List UCHAR)) := nofun

theorem leaves_byte (h : blr.length ≤ n) : Leaves n (byte blr) := by
  cases blr with
  | nil => exact leaves_error _
  | cons b blr => exact leaves_ok _ (Nat.le_of_succ_le h)

theorem leaves_par_word (h : blr.length ≤ n) : Leaves n (par_word blr) := by
  unfold par_word
  refine (leaves_byte h).bind fun low rest hrest => ?_
  exact (leaves_byte hrest).bind fun high rest' hrest' => leaves_ok _ hrest'

theorem leaves_PAR_desc (h : blr.length ≤ n) : Leaves n (PAR_desc blr) := by
  unfold PAR_desc
  refine (leaves_byte h).bind fun dtype rest hrest => ?_
  dsimp only
  cases PAR_form dtype with
  | none => exact leaves_error _
  | some form =>
    cases form with
    | string dtype extra =>
      exact (leaves_par_word hrest).bind fun length rest' hrest' => leaves_ok _ hrest'
    | typed dtype extra =>
      refine (leaves_par_word hrest).bind fun ttype rest' hrest' => ?_
      exact (leaves_par_word hrest').bind fun length rest'' hrest'' => leaves_ok _ hrest''
    | scaled dtype length =>
      exact (leaves_byte hrest).bind fun scale rest' hrest' => leaves_ok _ hrest'
    | fixed dtype length => exact leaves_ok _ hrest

theorem leaves_PARSE_desc (h : blr.length ≤ n) : Leaves n (PARSE_desc blr) := by
  unfold PARSE_desc
  refine (leaves_byte h).bind fun op rest hrest => ?_
  dsimp only
  cases PARSE_form op with
  | none => exact leaves_error _
  | some form =>
    cases form with
    | string dtype extra =>
      refine (leaves_byte hrest).bind fun low rest' hrest' => ?_
      exact (leaves_byte hrest').bind fun high rest'' hrest'' => leaves_ok _ hrest''
    | typed dtype extra =>
      refine (leaves_byte hrest).bind fun scale rest' hrest' => ?_
      refine (leaves_byte hrest').bind fun scale' rest'' hrest'' => ?_
      refine (leaves_byte hrest'').bind fun low r hr => ?_
      exact (leaves_byte hr).bind fun high r' hr' => leaves_ok _ hr'
    | scaled dtype length =>
      exact (leaves_byte hrest).bind fun scale rest' hrest' => leaves_ok _ hrest'
    | fixed dtype length => exact leaves_ok _ hrest

variable {platform : Platform}

theorem leaves_par_fields (k offset : ℕ) (h : blr.length ≤ n) :
    Leaves n (par_fields platform k offset blr) := by
  induction k generalizing offset blr with
  | zero => exact leaves_ok _ h
  | succ k ih =>
    refine (leaves_PAR_desc h).bind fun desc rest hrest => ?_
    exact (ih _ hrest).bind fun behind rest' hrest' => leaves_ok _ hrest'

theorem leaves_PARSE_fields (k offset net_length : ℕ) (h : blr.length ≤ n) :
    Leaves n (PARSE_fields platform k offset net_length blr) := by
  induction k generalizing offset net_length blr with
  | zero => exact leaves_ok _ h
  | succ k ih =>
    refine (leaves_PARSE_desc h).bind fun desc rest hrest => ?_
    exact (ih _ _ hrest).bind fun behind rest' hrest' => leaves_ok _ hrest'

theorem leaves_par_message (h : blr.length ≤ n) : Leaves n (par_message platform blr) := by
  unfold par_message
  refine (leaves_byte h).bind fun number rest hrest => ?_
  refine (leaves_par_word hrest).bind fun k rest' hrest' => ?_
  refine (leaves_par_fields k 0 hrest').bind fun fields r hr => ?_
  dsimp only
  split
  · exact leaves_error _
  · exact leaves_ok _ hr

theorem leaves_PARSE_message (net_length : ℕ) (h : blr.length ≤ n) :
    Leaves n (PARSE_message platform net_length blr) := by
  unfold PARSE_message
  refine (leaves_byte h).bind fun number rest hrest => ?_
  refine (leaves_byte hrest).bind fun low rest' hrest' => ?_
  refine (leaves_byte hrest').bind fun high r hr => ?_
  exact (leaves_PARSE_fields _ 0 net_length hr).bind fun fields r' hr' => leaves_ok _ hr'

end

/-! ## The messages of a request -/

section

variable (platform : Platform)

/-- `par_message` for each `blr_message` in a row: what it accepts, and why it refuses the next one -/
def par_messages : List UCHAR → List Message × Option Stop
  | [] => ([], some .fault)
  | op :: blr =>
    if op.val = blr_message then
      match _h : par_message platform blr with
      | .error e => ([], some e)
      | .ok (message, rest) =>
        let behind := par_messages rest
        (message :: behind.1, behind.2)
    else ([], none)
termination_by blr => blr.length
decreasing_by exact Nat.lt_succ_of_le (leaves_par_message (Nat.le_refl _) _ _h)

example : par_messages .four [255] = ([], none) := by simp [par_messages, blr_message]

/-- The loop over the messages. The last one comes first. -/
def PARSE_loop (net_length : ℕ) (message : List Message) : List UCHAR → Except Stop (List Message)
  | [] => .error .fault
  | op :: blr =>
    if op.val = blr_message then
      match _h : PARSE_message platform net_length blr with
      | .error e => .error e
      | .ok (next, rest) => PARSE_loop next.fmt_net_length (next :: message) rest
    else .ok message
termination_by blr => blr.length
decreasing_by exact Nat.lt_succ_of_le (leaves_PARSE_message net_length (Nat.le_refl _) _ _h)

example : PARSE_loop .four 0 [] [255] = .ok [] := by simp [PARSE_loop, blr_message]

def PARSE_messages (blr : List UCHAR) : Except Stop (List Message) := do
  let (version, blr) ← byte blr
  if version ≠ blr_version4 ∧ version ≠ blr_version5 then .error .minusOne
  else
    let (op, blr) ← byte blr
    if op ≠ blr_begin then .ok [] else PARSE_loop platform 0 [] blr

end

/-! ## Both read the same fields -/

/-- The alignment and the length of a field -/
def Dsc.field (platform : Platform) (desc : Dsc) : Layout.Field :=
  ⟨type_alignments platform desc.dsc_dtype, desc.dsc_length⟩

/-- A field with its offset -/
def Dsc.slot (platform : Platform) (desc : Dsc) : ℕ × Layout.Field :=
  (desc.dsc_address, desc.field platform)

def Dsc.kind (desc : Dsc) : Dtype × ℕ := (desc.dsc_dtype, desc.dsc_length)

set_option maxRecDepth 1000 in
/-- There is no type that only one of them knows. -/
theorem PARSE_form_eq (b : UCHAR) : PARSE_form b.val = PAR_form b.val := by
  revert b
  decide

theorem of_byte {blr rest : List UCHAR} {b : ℕ} (h : byte blr = .ok (b, rest)) :
    ∃ c : UCHAR, b = c.val ∧ blr = c :: rest := by
  cases blr with
  | nil => cases h
  | cons c blr =>
    cases h
    exact ⟨c, rfl, rfl⟩

theorem of_par_word {blr rest : List UCHAR} {k : ℕ} (h : par_word blr = .ok (k, rest)) :
    ∃ low high : UCHAR, k = high.val * 256 + low.val ∧ blr = low :: high :: rest := by
  obtain ⟨⟨low, blr'⟩, hlow, h⟩ := Outcome.of_bind_eq_ok h
  obtain ⟨⟨high, rest'⟩, hhigh, h⟩ := Outcome.of_bind_eq_ok h
  obtain ⟨low, rfl, rfl⟩ := of_byte hlow
  obtain ⟨high, rfl, rfl⟩ := of_byte hhigh
  cases h
  exact ⟨low, high, rfl, rfl⟩

theorem ushort_eq (low high extra : ℕ) :
    ((low + extra) % 65536 + (high <<< 8)) % 65536 = (high * 256 + low + extra) % 65536 := by
  rw [Nat.shiftLeft_eq]
  omega

theorem PARSE_read_of_ok {form : Form} {blr rest : List UCHAR} {d : Dsc}
    (h : PAR_read form blr = .ok (d, rest)) :
    ∃ d', PARSE_read form blr = .ok (d', rest) ∧ d'.kind = d.kind := by
  cases form with
  | string dtype extra =>
    obtain ⟨⟨k, rest'⟩, hword, h⟩ := Outcome.of_bind_eq_ok h
    obtain ⟨low, high, rfl, rfl⟩ := of_par_word hword
    cases h
    refine ⟨_, rfl, ?_⟩
    unfold Dsc.kind
    rw [ushort_eq]
  | typed dtype extra =>
    obtain ⟨⟨ttype, rest'⟩, hword, h⟩ := Outcome.of_bind_eq_ok h
    obtain ⟨scale, scale', rfl, rfl⟩ := of_par_word hword
    obtain ⟨⟨k, rest''⟩, hword', h⟩ := Outcome.of_bind_eq_ok h
    obtain ⟨low, high, rfl, rfl⟩ := of_par_word hword'
    cases h
    refine ⟨_, rfl, ?_⟩
    unfold Dsc.kind
    rw [ushort_eq]
  | scaled dtype length =>
    obtain ⟨⟨scale, rest'⟩, hscale, h⟩ := Outcome.of_bind_eq_ok h
    obtain ⟨scale, rfl, rfl⟩ := of_byte hscale
    cases h
    exact ⟨_, rfl, rfl⟩
  | fixed dtype length =>
    cases h
    exact ⟨_, rfl, rfl⟩

theorem of_PAR_desc {blr rest : List UCHAR} {d : Dsc} (h : PAR_desc blr = .ok (d, rest)) :
    ∃ (b : UCHAR) (blr' : List UCHAR) (form : Form), blr = b :: blr' ∧
      PAR_form b.val = some form ∧ PAR_read form blr' = .ok (d, rest) := by
  obtain ⟨⟨op, blr'⟩, hbyte, h⟩ := Outcome.of_bind_eq_ok h
  obtain ⟨b, rfl, rfl⟩ := of_byte hbyte
  change (match PAR_form b.val with
    | some form => PAR_read form blr'
    | none => .error .datnotsup) = _ at h
  split at h
  · next form hform => exact ⟨b, blr', form, rfl, hform, h⟩
  · cases h

/-- A field that the engine accepts is read by the remote interface as well. -/
theorem PARSE_desc_of_ok {blr rest : List UCHAR} {d : Dsc} (h : PAR_desc blr = .ok (d, rest)) :
    ∃ d', PARSE_desc blr = .ok (d', rest) ∧ d'.kind = d.kind := by
  obtain ⟨b, blr', form, rfl, hform, h⟩ := of_PAR_desc h
  have hparse : PARSE_desc (b :: blr') = PARSE_read form blr' := by
    rw [← PARSE_form_eq] at hform
    unfold PARSE_desc byte
    rw [Outcome.ok_seq]
    dsimp only
    rw [hform]
  rw [hparse]
  exact PARSE_read_of_ok h

section

variable {platform : Platform} {blr rest : List UCHAR}

theorem PARSE_fields_of_ok {k offset stop : ℕ} {ds : List Dsc}
    (h : par_fields platform k offset blr = .ok ((ds, stop), rest)) (offset' net_length : ℕ) :
    ∃ ds' stop' net_length',
      PARSE_fields platform k offset' net_length blr = .ok ((ds', stop', net_length'), rest) ∧
        ds'.map Dsc.kind = ds.map Dsc.kind := by
  induction k generalizing offset stop ds blr offset' net_length with
  | zero =>
    cases h
    exact ⟨[], offset', net_length, rfl, rfl⟩
  | succ k ih =>
    obtain ⟨⟨d, blr'⟩, hd, h⟩ := Outcome.of_bind_eq_ok h
    obtain ⟨⟨⟨behind, stop'⟩, blr''⟩, hbehind, h⟩ := Outcome.of_bind_eq_ok h
    cases h
    obtain ⟨d', hd', hkind⟩ := PARSE_desc_of_ok hd
    obtain ⟨address, haddress⟩ : ∃ address,
        (if type_alignments platform d'.dsc_dtype > 1 then
          FB_ALIGN offset' (type_alignments platform d'.dsc_dtype) % 65536 else offset') = address :=
      ⟨_, rfl⟩
    obtain ⟨ds', stop', net', hds', hkinds⟩ := ih hbehind ((address + d'.dsc_length) % 65536)
      ((net_length + netLength d') % 65536)
    refine ⟨{ d' with dsc_address := address } :: ds', stop', net', ?_, ?_⟩
    · rw [PARSE_fields, hd', Outcome.ok_seq]
      dsimp only
      rw [haddress, hds']
      rfl
    · rw [List.map_cons, List.map_cons, hkinds]
      exact congrArg (· :: _) hkind

/-! ## The layouts -/

theorem alignUp_of_ne {x w : ℕ} (d : Dtype) (hx : x < w) :
    (if type_alignments platform d ≠ 0 then FB_ALIGN x (type_alignments platform d) % w else x) =
      Layout.alignUp x (type_alignments platform d) % w := by
  unfold Layout.alignUp FB_ALIGN
  by_cases hzero : type_alignments platform d = 0
  · rw [if_neg (not_not.mpr hzero), if_pos (by omega), Nat.mod_eq_of_lt hx]
  · have htwo : ∀ (p : Platform) (d : Dtype), type_alignments p d = 0 ∨ 2 ≤ type_alignments p d := by
      intro p d
      cases p <;> cases d <;> decide
    have h2 := (htwo platform d).resolve_left hzero
    rw [if_pos hzero, if_neg (by omega)]

theorem alignUp_of_gt {x w : ℕ} (d : Dtype) (hx : x < w) :
    (if type_alignments platform d > 1 then FB_ALIGN x (type_alignments platform d) % w else x) =
      Layout.alignUp x (type_alignments platform d) % w := by
  unfold Layout.alignUp FB_ALIGN
  by_cases hone : type_alignments platform d > 1
  · rw [if_pos hone, if_neg (by omega)]
  · rw [if_neg hone, if_pos (by omega), Nat.mod_eq_of_lt hx]

theorem par_fields_place {k offset stop : ℕ} {ds : List Dsc} (hx : offset < 2 ^ 32)
    (h : par_fields platform k offset blr = .ok ((ds, stop), rest)) :
    ds.map (Dsc.slot platform) = Layout.place (2 ^ 32) offset (ds.map (Dsc.field platform)) ∧
      stop = Layout.finish (2 ^ 32) offset (ds.map (Dsc.field platform)) := by
  induction k generalizing offset stop ds blr with
  | zero =>
    cases h
    exact ⟨rfl, rfl⟩
  | succ k ih =>
    obtain ⟨⟨d, blr'⟩, hd, h⟩ := Outcome.of_bind_eq_ok h
    obtain ⟨⟨⟨behind, stop'⟩, blr''⟩, hbehind, h⟩ := Outcome.of_bind_eq_ok h
    cases h
    obtain ⟨hplace, hfinish⟩ := ih (Nat.mod_lt _ (Nat.two_pow_pos 32)) hbehind
    rw [alignUp_of_ne d.dsc_dtype hx] at hplace hfinish
    constructor
    · rw [List.map_cons, List.map_cons, Layout.place, hplace, alignUp_of_ne d.dsc_dtype hx]
      rfl
    · rw [hfinish]
      rfl

theorem PARSE_fields_place {k offset net_length stop net : ℕ} {ds : List Dsc} (hx : offset < 65536)
    (h : PARSE_fields platform k offset net_length blr = .ok ((ds, stop, net), rest)) :
    ds.map (Dsc.slot platform) = Layout.place 65536 offset (ds.map (Dsc.field platform)) ∧
      stop = Layout.finish 65536 offset (ds.map (Dsc.field platform)) := by
  induction k generalizing offset net_length stop net ds blr with
  | zero =>
    cases h
    exact ⟨rfl, rfl⟩
  | succ k ih =>
    obtain ⟨⟨d, blr'⟩, hd, h⟩ := Outcome.of_bind_eq_ok h
    obtain ⟨⟨⟨behind, stop', net'⟩, blr''⟩, hbehind, h⟩ := Outcome.of_bind_eq_ok h
    cases h
    obtain ⟨hplace, hfinish⟩ := ih (Nat.mod_lt _ (by decide)) hbehind
    rw [alignUp_of_gt d.dsc_dtype hx] at hplace hfinish
    constructor
    · rw [List.map_cons, List.map_cons, Layout.place, hplace, alignUp_of_gt d.dsc_dtype hx]
      rfl
    · rw [hfinish]
      rfl

/-- Strings are aligned to two bytes at most, and other types have eight bytes at most. -/
def Form.roomy : Form → Bool
  | .string t _ => t = .text ∨ t = .cstring ∨ t = .varying
  | .typed t _ => t = .text ∨ t = .cstring ∨ t = .varying
  | .scaled _ length => length ≤ 8
  | .fixed _ length => length ≤ 8

set_option maxRecDepth 1000 in
theorem PAR_form_roomy (b : UCHAR) : (PAR_form b.val).all Form.roomy = true := by
  revert b
  decide

/-- A field with its alignment takes at most 65536 bytes. -/
theorem field_room {d : Dsc} (h : PAR_desc blr = .ok (d, rest)) (x : ℕ) :
    Layout.alignUp x (type_alignments platform d.dsc_dtype) + d.dsc_length ≤ x + 65536 := by
  obtain ⟨b, blr', form, rfl, hform, h⟩ := of_PAR_desc h
  have hround : ∀ b, b ≤ 8 → Layout.alignUp x b ≤ x + 7 := by
    intro b hb
    unfold Layout.alignUp
    split
    · omega
    · have hmod := Nat.div_mul_le_self (x + b - 1) b
      omega
  have hbound : ∀ t, type_alignments platform t ≤ 8 := by
    intro t
    cases platform <;> cases t <;> decide
  have hstring : ∀ t, t = .text ∨ t = .cstring ∨ t = .varying →
      Layout.alignUp x (type_alignments platform t) ≤ x + 1 := by
    intro t ht
    rcases ht with rfl | rfl | rfl
    · exact Nat.le_succ x
    · exact Nat.le_succ x
    · change (x + 2 - 1) / 2 * 2 ≤ x + 1
      omega
  have hb := PAR_form_roomy b
  rw [hform] at hb
  cases form with
  | string t extra =>
    obtain ⟨⟨k, rest'⟩, hword, h⟩ := Outcome.of_bind_eq_ok h
    cases h
    have ht := hstring t (of_decide_eq_true hb)
    have hlt := Nat.mod_lt (k + extra) (by decide : 65536 > 0)
    dsimp only
    omega
  | typed t extra =>
    obtain ⟨⟨ttype, rest'⟩, hword, h⟩ := Outcome.of_bind_eq_ok h
    obtain ⟨⟨k, rest''⟩, hword', h⟩ := Outcome.of_bind_eq_ok h
    cases h
    have ht := hstring t (of_decide_eq_true hb)
    have hlt := Nat.mod_lt (k + extra) (by decide : 65536 > 0)
    dsimp only
    omega
  | scaled t length =>
    obtain ⟨⟨scale, rest'⟩, hscale, h⟩ := Outcome.of_bind_eq_ok h
    cases h
    have hle := hround _ (hbound t)
    have hlength : length ≤ 8 := of_decide_eq_true hb
    dsimp only
    omega
  | fixed t length =>
    cases h
    have hle := hround _ (hbound t)
    have hlength : length ≤ 8 := of_decide_eq_true hb
    dsimp only
    omega

theorem par_fields_stop {k offset stop : ℕ} {ds : List Dsc}
    (h : par_fields platform k offset blr = .ok ((ds, stop), rest)) (x : ℕ) :
    Layout.stop x (ds.map (Dsc.field platform)) ≤ x + 65536 * k := by
  induction k generalizing offset stop ds blr x with
  | zero =>
    cases h
    exact Nat.le_refl x
  | succ k ih =>
    obtain ⟨⟨d, blr'⟩, hd, h⟩ := Outcome.of_bind_eq_ok h
    obtain ⟨⟨⟨behind, stop'⟩, blr''⟩, hbehind, h⟩ := Outcome.of_bind_eq_ok h
    cases h
    have hroom : Layout.alignUp x (type_alignments platform d.dsc_dtype) + d.dsc_length ≤
        x + 65536 := field_room hd x
    have hstop := ih hbehind
      (Layout.alignUp x (type_alignments platform d.dsc_dtype) + d.dsc_length)
    change Layout.stop (Layout.alignUp x (type_alignments platform d.dsc_dtype) + d.dsc_length)
      (behind.map (Dsc.field platform)) ≤ _
    omega

end

/-! ## The formats -/

/-- The same fields at the same offsets, and the same length -/
structure Agrees (m m' : Message) : Prop where
  number : m.number = m'.number
  types : m.fmt_desc.map Dsc.kind = m'.fmt_desc.map Dsc.kind
  offsets : m.fmt_desc.map Dsc.dsc_address = m'.fmt_desc.map Dsc.dsc_address
  length : m.fmt_length = m'.fmt_length

/-- The fields of a message do not meet, are aligned, and lie in its buffer. -/
def Message.Sound (platform : Platform) (m : Message) : Prop :=
  Layout.Sound (m.fmt_desc.map (Dsc.slot platform)) m.fmt_length

/-- How long the message is when offsets are not cut to a `USHORT` -/
def Message.extent (platform : Platform) (m : Message) : ℕ :=
  Layout.stop 0 (m.fmt_desc.map (Dsc.field platform))

section

variable {platform : Platform} {blr rest : List UCHAR}

theorem map_field_of_kinds {ds ds' : List Dsc} (h : ds'.map Dsc.kind = ds.map Dsc.kind) :
    ds'.map (Dsc.field platform) = ds.map (Dsc.field platform) := by
  have hfield : Dsc.field platform =
      (fun k : Dtype × ℕ => ⟨type_alignments platform k.1, k.2⟩) ∘ Dsc.kind := rfl
  rw [hfield, ← List.map_map, ← List.map_map, h]

theorem PARSE_message_of_ok {m : Message} (h : par_message platform blr = .ok (m, rest))
    (net_length : ℕ) :
    ∃ m', PARSE_message platform net_length blr = .ok (m', rest) ∧ Agrees m m' := by
  obtain ⟨⟨number, blr'⟩, hnumber, hbehind⟩ := Outcome.of_bind_eq_ok h
  obtain ⟨⟨n, blr''⟩, hword, hfields⟩ := Outcome.of_bind_eq_ok hbehind
  obtain ⟨⟨⟨ds, stop⟩, rest'⟩, hds, hend⟩ := Outcome.of_bind_eq_ok hfields
  obtain ⟨low, high, rfl, rfl⟩ := of_par_word hword
  dsimp only at hds hend
  have hcount : (low.val + (high.val <<< 8)) % 65536 = high.val * 256 + low.val := by
    have hlow := low.isLt
    have hhigh := high.isLt
    rw [Nat.shiftLeft_eq]
    omega
  -- a `ULONG` does not wrap
  have hn : high.val * 256 + low.val ≤ 65535 := by
    have hlow := low.isLt
    have hhigh := high.isLt
    omega
  have hstop := par_fields_stop hds 0
  obtain ⟨hplace, hfinish⟩ := par_fields_place (Nat.two_pow_pos 32) hds
  have hlt : Layout.stop 0 (ds.map (Dsc.field platform)) < 2 ^ 32 := by omega
  rw [(Layout.place_of_lt hlt).1] at hfinish
  split at hend
  · cases hend
  next hsize =>
  cases hend
  unfold MAX_FORMAT_SIZE at hsize
  have hlt' : Layout.stop 0 (ds.map (Dsc.field platform)) < 65536 := by omega
  obtain ⟨ds', stop', net', hds', hkinds⟩ := PARSE_fields_of_ok hds 0 net_length
  obtain ⟨hplace', hfinish'⟩ := PARSE_fields_place (by decide : 0 < 65536) hds'
  have hmap : ds'.map (Dsc.field platform) = ds.map (Dsc.field platform) :=
    map_field_of_kinds hkinds
  rw [hmap, Layout.place_congr hlt' hlt, ← hplace] at hplace'
  rw [hmap, (Layout.place_of_lt hlt').1, ← hfinish] at hfinish'
  refine ⟨⟨number, ds', stop', net'⟩, ?_, rfl, hkinds.symm, ?_, ?_⟩
  · unfold PARSE_message
    rw [hnumber, Outcome.ok_seq]
    change (PARSE_fields platform ((low.val + (high.val <<< 8)) % 65536) 0 net_length blr'' >>= _) = _
    rw [hcount, hds']
    rfl
  · have haddress : Dsc.dsc_address = Prod.fst ∘ Dsc.slot platform := rfl
    rw [haddress, ← List.map_map, ← List.map_map, hplace']
  · dsimp only
    rw [hfinish', Nat.mod_eq_of_lt (by omega)]

/-- The offsets of a message are those of its fields, counted modulo 65536. -/
def Message.Laid (platform : Platform) (m : Message) : Prop :=
  m.fmt_desc.map (Dsc.slot platform) =
      Layout.place 65536 0 (m.fmt_desc.map (Dsc.field platform)) ∧
    m.fmt_length = Layout.finish 65536 0 (m.fmt_desc.map (Dsc.field platform))

theorem laid_of_PARSE_message {net_length : ℕ} {m : Message}
    (h : PARSE_message platform net_length blr = .ok (m, rest)) : m.Laid platform := by
  obtain ⟨⟨number, blr'⟩, hnumber, hbehind⟩ := Outcome.of_bind_eq_ok h
  obtain ⟨⟨low, blr''⟩, hlow, hbehind'⟩ := Outcome.of_bind_eq_ok hbehind
  obtain ⟨⟨high, r⟩, hhigh, hfields⟩ := Outcome.of_bind_eq_ok hbehind'
  obtain ⟨⟨⟨ds, stop, net⟩, rest'⟩, hds, hend⟩ := Outcome.of_bind_eq_ok hfields
  cases hend
  exact PARSE_fields_place (by decide) hds

theorem PARSE_loop_message {net_length : ℕ} {message : List Message} {op : UCHAR} {m : Message}
    (hop : op.val = blr_message) (h : PARSE_message platform net_length blr = .ok (m, rest)) :
    PARSE_loop platform net_length message (op :: blr) =
      PARSE_loop platform m.fmt_net_length (m :: message) rest := by
  rw [PARSE_loop, if_pos hop]
  split
  · next e he =>
    rw [h] at he
    cases he
  · next next' rest' he =>
    rw [h] at he
    cases he
    rfl

theorem PARSE_loop_error {net_length : ℕ} {message : List Message} {op : UCHAR} {e : Stop}
    (hop : op.val = blr_message) (h : PARSE_message platform net_length blr = .error e) :
    PARSE_loop platform net_length message (op :: blr) = .error e := by
  rw [PARSE_loop, if_pos hop]
  split
  · next e' he =>
    rw [h] at he
    cases he
    rfl
  · next next' rest' he =>
    rw [h] at he
    cases he

theorem laid_of_PARSE_loop {net_length : ℕ} {message out : List Message}
    (h : PARSE_loop platform net_length message blr = .ok out)
    (hall : ∀ m ∈ message, m.Laid platform) : ∀ m ∈ out, m.Laid platform := by
  induction hn : blr.length using Nat.strong_induction_on generalizing blr net_length message with
  | _ n ih =>
    subst hn
    cases blr with
    | nil =>
      rw [PARSE_loop] at h
      cases h
    | cons op blr =>
      by_cases hop : op.val = blr_message
      · cases hm : PARSE_message platform net_length blr with
        | error e =>
          rw [PARSE_loop_error hop hm] at h
          cases h
        | ok r =>
          obtain ⟨m, rest⟩ := r
          rw [PARSE_loop_message hop hm] at h
          have hlt : rest.length < (op :: blr).length :=
            Nat.lt_succ_of_le (leaves_PARSE_message net_length (Nat.le_refl _) _ hm)
          refine ih _ hlt h ?_ rfl
          rw [List.forall_mem_cons]
          exact ⟨laid_of_PARSE_message hm, hall⟩
      · rw [PARSE_loop, if_neg hop] at h
        cases h
        exact hall

theorem Message.Laid.sound_iff {m : Message} (h : m.Laid platform) :
    m.Sound platform ↔ m.extent platform ≤ 65535 := by
  obtain ⟨hslots, hlength⟩ := h
  unfold Message.Sound Message.extent
  rw [hslots, hlength, Layout.sound_place_iff (by decide), Nat.lt_succ_iff]
  -- all alignments are powers of two
  intro f hf _
  obtain ⟨d, -, rfl⟩ := List.mem_map.mp hf
  have hall : ∀ (p : Platform) (t : Dtype), 65536 % type_alignments p t = 0 ∨
      type_alignments p t = 0 := by
    intro p t
    cases p <;> cases t <;> decide
  rcases hall platform d.dsc_dtype with hmod | hzero
  · exact hmod
  · change 1 < type_alignments platform d.dsc_dtype at *
    omega

end

section

variable {platform : Platform}

theorem par_messages_message {blr rest : List UCHAR} {op : UCHAR} {m : Message}
    (hop : op.val = blr_message) (h : par_message platform blr = .ok (m, rest)) :
    par_messages platform (op :: blr) =
      (m :: (par_messages platform rest).1, (par_messages platform rest).2) := by
  rw [par_messages, if_pos hop]
  split
  · next e he =>
    rw [h] at he
    cases he
  · next next' rest' he =>
    rw [h] at he
    cases he
    rfl

theorem par_messages_error {blr : List UCHAR} {op : UCHAR} {e : Stop} (hop : op.val = blr_message)
    (h : par_message platform blr = .error e) :
    par_messages platform (op :: blr) = ([], some e) := by
  rw [par_messages, if_pos hop]
  split
  · next e' he =>
    rw [h] at he
    cases he
    rfl
  · next next' rest' he =>
    rw [h] at he
    cases he

/-- The messages that are parsed come before those that there are. -/
theorem PARSE_loop_extends {blr : List UCHAR} {net_length : ℕ} {message out : List Message}
    (h : PARSE_loop platform net_length message blr = .ok out) : ∃ out', out = out' ++ message := by
  induction hn : blr.length using Nat.strong_induction_on generalizing blr net_length message with
  | _ n ih =>
    subst hn
    cases blr with
    | nil =>
      rw [PARSE_loop] at h
      cases h
    | cons op blr =>
      by_cases hop : op.val = blr_message
      · cases hm : PARSE_message platform net_length blr with
        | error e =>
          rw [PARSE_loop_error hop hm] at h
          cases h
        | ok r =>
          obtain ⟨m, rest⟩ := r
          rw [PARSE_loop_message hop hm] at h
          have hlt : rest.length < (op :: blr).length :=
            Nat.lt_succ_of_le (leaves_PARSE_message net_length (Nat.le_refl _) _ hm)
          obtain ⟨out', rfl⟩ := ih _ hlt h rfl
          exact ⟨out' ++ [m], by rw [List.append_assoc]; rfl⟩
      · rw [PARSE_loop, if_neg hop] at h
        cases h
        exact ⟨[], rfl⟩

/-- What the engine accepts is laid out the same by the remote interface, in the order of the
request. -/
theorem PARSE_loop_agrees (blr : List UCHAR) (net_length : ℕ) (message : List Message) :
    ((par_messages platform blr).2 = none → ∃ out,
      PARSE_loop platform net_length message blr = .ok out ∧
        out.length = message.length + (par_messages platform blr).1.length) ∧
    ∀ out, PARSE_loop platform net_length message blr = .ok out →
      ∃ out', out = out' ++ message ∧
        List.Forall₂ Agrees (par_messages platform blr).1
          (out'.reverse.take (par_messages platform blr).1.length) := by
  induction hn : blr.length using Nat.strong_induction_on generalizing blr net_length message with
  | _ n ih =>
    subst hn
    cases blr with
    | nil =>
      rw [par_messages, PARSE_loop]
      exact ⟨nofun, nofun⟩
    | cons op blr =>
      by_cases hop : op.val = blr_message
      · cases hm : par_message platform blr with
        | error e =>
          rw [par_messages_error hop hm]
          refine ⟨nofun, ?_⟩
          intro out hout
          obtain ⟨out', rfl⟩ := PARSE_loop_extends hout
          exact ⟨out', rfl, .nil⟩
        | ok r =>
          obtain ⟨m, rest⟩ := r
          obtain ⟨m', hm', hagrees⟩ := PARSE_message_of_ok hm net_length
          have hlt : rest.length < (op :: blr).length :=
            Nat.lt_succ_of_le (leaves_par_message (Nat.le_refl _) _ hm)
          obtain ⟨hall, hsome⟩ := ih _ hlt rest m'.fmt_net_length (m' :: message) rfl
          rw [par_messages_message hop hm, PARSE_loop_message hop hm']
          constructor
          · intro hnone
            obtain ⟨out, hout, hlen⟩ := hall hnone
            refine ⟨out, hout, ?_⟩
            rw [hlen, List.length_cons, List.length_cons]
            omega
          · intro out hout
            obtain ⟨out', rfl, hforall⟩ := hsome out hout
            refine ⟨out' ++ [m'], by rw [List.append_assoc]; rfl, ?_⟩
            rw [List.reverse_append]
            exact .cons hagrees hforall
      · rw [PARSE_loop, par_messages, if_neg hop, if_neg hop]
        refine ⟨fun _ => ⟨message, rfl, rfl⟩, ?_⟩
        intro out hout
        cases hout
        exact ⟨[], rfl, .nil⟩

/-- Messages of the engine are laid out the same by the remote interface. A format that the remote
interface returns is sound exactly if the message is not longer than a `USHORT` can say. -/
theorem message_layouts_iff (platform : Platform) :
    (∀ (version : UCHAR) (blr : List UCHAR),
      version.val = blr_version4 ∨ version.val = blr_version5 →
        ((par_messages platform blr).2 = none → ∃ out,
          PARSE_messages platform (version :: 2 :: blr) = .ok out ∧
            out.length = (par_messages platform blr).1.length) ∧
        ∀ out, PARSE_messages platform (version :: 2 :: blr) = .ok out →
          List.Forall₂ Agrees (par_messages platform blr).1
            (out.reverse.take (par_messages platform blr).1.length)) ∧
    ∀ (blr : List UCHAR) (out : List Message), PARSE_messages platform blr = .ok out →
      ∀ m ∈ out, m.Sound platform ↔ m.extent platform ≤ 65535 := by
  constructor
  · intro version blr hversion
    have hparse : PARSE_messages platform (version :: 2 :: blr) = PARSE_loop platform 0 [] blr := by
      unfold PARSE_messages
      change (if version.val ≠ blr_version4 ∧ version.val ≠ blr_version5 then .error .minusOne
        else PARSE_loop platform 0 [] blr) = _
      rw [if_neg fun h => hversion.elim h.1 h.2]
    rw [hparse]
    obtain ⟨hall, hsome⟩ := PARSE_loop_agrees blr 0 []
    constructor
    · intro hnone
      obtain ⟨out, hout, hlen⟩ := hall hnone
      exact ⟨out, hout, by rw [hlen, List.length_nil, Nat.zero_add]⟩
    · intro out hout
      obtain ⟨out', rfl, hforall⟩ := hsome out hout
      rwa [List.append_nil]
  · intro blr out hout m hm
    obtain ⟨⟨version, blr'⟩, hversion, hbehind⟩ := Outcome.of_bind_eq_ok hout
    dsimp only at hbehind
    split at hbehind
    · cases hbehind
    obtain ⟨⟨op, blr''⟩, hop, hloop⟩ := Outcome.of_bind_eq_ok hbehind
    dsimp only at hloop
    split at hloop
    · cases hloop
      exact absurd hm List.not_mem_nil
    · exact (laid_of_PARSE_loop hloop (by simp) m hm).sound_iff

end

/-- The second one of two strings ends behind a buffer of one byte. -/
theorem message_layouts_wrap :
    ∃ m : Message,
      PARSE_messages .eight [5, 2, 4, 0, 2, 0, 14, 255, 255, 14, 2, 0, 255] = .ok [m] ∧
        m.fmt_desc.map Dsc.dsc_address = [0, 65535] ∧ m.fmt_length = 1 ∧ ¬m.Sound .eight := by
  have hm : PARSE_message .eight 0 [0, 2, 0, 14, 255, 255, 14, 2, 0, 255] =
      .ok (⟨0, [⟨.text, 0, 65535, 0, 0⟩, ⟨.text, 0, 2, 0, 65535⟩], 1, 4⟩, [255]) := by
    decide
  refine ⟨⟨0, [⟨.text, 0, 65535, 0, 0⟩, ⟨.text, 0, 2, 0, 65535⟩], 1, 4⟩, ?_, rfl, rfl, ?_⟩
  · have hloop : PARSE_messages .eight [5, 2, 4, 0, 2, 0, 14, 255, 255, 14, 2, 0, 255] =
        PARSE_loop .eight 0 [] [4, 0, 2, 0, 14, 255, 255, 14, 2, 0, 255] := rfl
    rw [hloop, PARSE_loop_message (by decide) hm, PARSE_loop, if_neg (by decide)]
  · rw [(laid_of_PARSE_message hm).sound_iff]
    decide

end Firebird.Blr
