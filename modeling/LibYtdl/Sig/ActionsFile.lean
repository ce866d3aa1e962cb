import LibYtdl.Foundation.Encoding
import LibYtdl.Sig.Actions

/-!
# The signature actions in a file

What `ytdl_sig_actions_save_file` writes, and what `ytdl_sig_actions_load_file` makes of the bytes
from the current position of a file on. A read that reaches the end of the file leaves the rest of
its destination as it was. The heap and QuickJS are parameters; a value `none` means that the load
wrote outside of its destination or failed an assertion of the allocator.
-/

namespace LibYtdl.Sig.ActionsFile

open Machine Encoding Actions

/-- The enumerators of `ytdl_sig_action_t`. -/
def code : SigAction → UInt32
  | .swap => 1
  | .reverse => 2
  | .slice => 3
  | .splice => 4

/-- `ytdl_sig_actions_head_t`, with `YTDL_MAX_SIG` actions. -/
@[ext]
structure Head where
  actions : Vector UInt32 20
  actionsArg : Vector Int32 20
  actionsSize : Int32
  deriving DecidableEq

def Head.words (head : Head) : List UInt32 :=
  head.actions.toList ++ (head.actionsArg.toList.map Int32.toUInt32 ++ [head.actionsSize.toUInt32])

/-- The head as it lies in memory. -/
def Head.bytes (head : Head) : Bytes := wordsBytes head.words

/-- The head that lies in these bytes. -/
def Head.ofBytes (bytes : Bytes) : Head where
  actions := Vector.ofFn fun index ↦ wordAt bytes index
  actionsArg := Vector.ofFn fun index ↦ (wordAt bytes (20 + index)).toInt32
  actionsSize := (wordAt bytes 40).toInt32

/-- What an extraction leaves in a head that was zero: known actions, and zeros behind them. -/
structure Head.Extracted (head : Head) : Prop where
  nonneg : 0 ≤ head.actionsSize.toInt
  le_maxSig : head.actionsSize.toInt ≤ 20
  known : ∀ index : Fin 20, index.val < head.actionsSize.toInt →
    ∃ action, head.actions[index] = code action
  unused : ∀ index : Fin 20, head.actionsSize.toInt ≤ index.val → head.actions[index] = 0

/-- `ytdl_sig_actions_t`; `rt` and `ctx` belong to the environment. -/
structure SigActions (JSValue : Type) where
  head : Head
  bytecode : Option Bytes
  bcLen : ℕ
  script : JSValue
  func : JSValue

/-- What one load finds outside of the file. `allocates` says that the player and its JavaScript
runtime could be allocated, `stores` that its path could be copied and the map had room for it;
`fresh` is what the bytes of a new allocation hold. -/
structure Env (JSValue : Type) where
  allocates : Bool
  stores : Bool
  jsMalloc : ℕ → Bool
  fresh : ℕ → UInt8
  undefined : JSValue
  isException : JSValue → Bool
  readObject : Bytes → JSValue
  evalFunction : JSValue → JSValue

variable {JSValue : Type}

/-! ## The functions of `sig.c` -/

/-- `fgetc`, which returns `EOF` at the end of the file. -/
def fgetc : Bytes → ℤ × Bytes
  | [] => (-1, [])
  | byte :: file => (byte.toNat, file)

/-- `fread`: the bytes that are there, and the rest of the file. -/
def fread (size : ℕ) (file : Bytes) : Bytes × Bytes := (file.take size, file.drop size)

/-- Bytes read to the beginning of an object. -/
def store (memory data : Bytes) : Bytes := data ++ memory.drop data.length

/-- `ytdl_sig_actions_init`; without its context the actions are not usable. -/
def sigActionsInit (env : Env JSValue) : Option (SigActions JSValue) :=
  if env.allocates then
    some
      { head := Head.ofBytes []
        bytecode := none
        bcLen := 0
        script := env.undefined
        func := env.undefined }
  else
    none

/-- `ytdl_sig_actions_save_file`. -/
def sigActionsSaveFile (actions : SigActions JSValue) : Bytes :=
  actions.head.bytes ++
    8 :: (littleEndian 8 actions.bcLen ++ (actions.bytecode.getD []).take actions.bcLen)

/-- The end of `ytdl_sig_actions_load_file`, after the allocation of the bytecode. -/
def loadBytecode (env : Env JSValue) (actions : SigActions JSValue) (file : Bytes) :
    ℤ × SigActions JSValue × Bytes :=
  let (data, file) := fread actions.bcLen file
  let bytecode := store ((List.range actions.bcLen).map env.fresh) data
  let script := env.readObject bytecode
  let actions := { actions with bytecode := some bytecode, script := script }
  if env.isException script then
    (-1, actions, file)
  else
    let func := env.evalFunction script
    let actions := { actions with func := func }
    if env.isException func then (-1, actions, file) else (0, actions, file)

/-- `ytdl_sig_actions_load_file`, whose value is the return value, the actions and the rest of the
file. The length goes to a `size_t`, and `js_malloc` asserts that it is not zero. -/
def sigActionsLoadFile (env : Env JSValue) (actions : SigActions JSValue) (file : Bytes) :
    Option (ℤ × SigActions JSValue × Bytes) :=
  if actions.bytecode.isSome then
    some (-1, actions, file)
  else
    let (data, file) := fread 164 file
    let actions := { actions with head := Head.ofBytes (store actions.head.bytes data) }
    let (sSize, file) := fgetc file
    let (data, file) := fread (sizeT sSize) file
    if 8 < data.length then
      none
    else
      let actions :=
        { actions with bcLen := value (store (littleEndian 8 actions.bcLen) data) }
      if actions.bcLen = 0 then
        none
      else if env.jsMalloc actions.bcLen then
        some (loadBytecode env actions file)
      else
        some (-1, actions, file)

/-- The calls with which the player cache reads the actions of a new player. -/
def initAndLoad (env : Env JSValue) (file : Bytes) : Option (ℤ × SigActions JSValue × Bytes) := do
  let actions ← sigActionsInit env
  sigActionsLoadFile env actions file

/-! ## The layout of a record -/

/-- The size of the length, as it is read. -/
def lengthSize (body : Bytes) : ℕ := sizeT (fgetc (body.drop 164)).1

def lengthBytes (body : Bytes) : Bytes := (body.drop 165).take (lengthSize body)

/-- The length of the bytecode, as it is read. -/
def bcLen (body : Bytes) : ℕ := value (lengthBytes body)

/-- What follows the length. -/
def afterLength (body : Bytes) : Bytes := (body.drop 165).drop (lengthSize body)

/-- The head, as it is read into zeros. -/
def headOf (body : Bytes) : Head := Head.ofBytes (body.take 164)

/-- The bytecode, with the heap's bytes for those which the file does not have. -/
def bytecodeOf (env : Env JSValue) (body : Bytes) : Bytes :=
  store ((List.range (bcLen body)).map env.fresh) ((afterLength body).take (bcLen body))

/-- The position after the load. -/
def afterBody (env : Env JSValue) (body : Bytes) : Bytes :=
  if env.jsMalloc (bcLen body) then (afterLength body).drop (bcLen body) else afterLength body

/-- The load stays inside of its destinations and passes the allocator's assertion. -/
structure Harmless (env : Env JSValue) (body : Bytes) : Prop where
  allocates : env.allocates
  length_fits : (lengthBytes body).length ≤ 8
  bcLen_ne_zero : bcLen body ≠ 0

/-- A complete record of at most `YTDL_MAX_SIG` known actions, whose script loads. -/
structure GoodBody (env : Env JSValue) (body : Bytes) : Prop extends Harmless env body where
  complete : 165 + lengthSize body + bcLen body ≤ body.length
  nonneg : 0 ≤ (headOf body).actionsSize.toInt
  le_maxSig : (headOf body).actionsSize.toInt ≤ 20
  known : ∀ index : Fin 20, index.val < (headOf body).actionsSize.toInt →
    ∃ action, (headOf body).actions[index] = code action
  jsMalloc : env.jsMalloc (bcLen body)
  reads : ¬ env.isException (env.readObject (bytecodeOf env body))
  evaluates : ¬ env.isException (env.evalFunction (env.readObject (bytecodeOf env body)))

/-! ## The head in memory -/

theorem Head.words_length (head : Head) : head.words.length = 41 := by
  simp [Head.words]

@[simp] theorem Head.bytes_length (head : Head) : head.bytes.length = 164 := by
  rw [Head.bytes, wordsBytes_length, Head.words_length]

theorem Head.wordAt_bytes (head : Head) {index : ℕ} (hindex : index < head.words.length) :
    wordAt head.bytes index = head.words[index] := by
  rw [Head.bytes, ← wordAt_wordsBytes head.words [] hindex, List.append_nil]

theorem Head.ofBytes_bytes (head : Head) : Head.ofBytes head.bytes = head := by
  have hlength := head.words_length
  apply Head.ext
  · apply Vector.ext
    intro index hindex
    rw [Head.ofBytes, Vector.getElem_ofFn, head.wordAt_bytes (by omega)]
    simp [Head.words, hindex]
  · apply Vector.ext
    intro index hindex
    rw [Head.ofBytes, Vector.getElem_ofFn, head.wordAt_bytes (by dsimp only; omega)]
    simp [Head.words, hindex]
  · rw [Head.ofBytes, head.wordAt_bytes (by omega)]
    simp [Head.words]

theorem Head.ofBytes_append_zeros (bytes : Bytes) (count : ℕ) :
    Head.ofBytes (bytes ++ List.replicate count 0) = Head.ofBytes bytes := by
  simp only [Head.ofBytes, wordAt_append_zeros]

theorem code_lt (action : SigAction) : (code action).toNat < 256 := by
  cases action <;> decide

theorem Head.firstAction_lt {head : Head} (hhead : head.Extracted) :
    head.actions[0].toNat < 256 := by
  by_cases hsize : 0 < head.actionsSize.toInt
  · obtain ⟨action, haction⟩ := hhead.known 0 hsize
    have hfirst : head.actions[0] = code action := haction
    rw [hfirst]
    exact code_lt action
  · have hfirst : head.actions[0] = 0 := hhead.unused 0 (Int.not_lt.mp hsize)
    rw [hfirst]
    decide

theorem Head.actionsSize_le {head : Head} (hhead : head.Extracted) :
    head.actionsSize.toUInt32.toNat ≤ 20 := by
  apply toNat_le_of_toInt
  · rw [Int32.toInt32_toUInt32]
    exact hhead.nonneg
  · rw [Int32.toInt32_toUInt32]
    exact hhead.le_maxSig

/-- The head begins with its first action. -/
theorem Head.bytes_first (head : Head) :
    ∃ rest, head.bytes = littleEndian 4 head.actions[0].toNat ++ rest := by
  have hactions : head.actions.toList = head.actions[0] :: head.actions.toList.tail := by
    apply List.ext_getElem
    · simp
    · intro index _ _
      cases index <;> simp
  refine ⟨wordsBytes (head.actions.toList.tail ++
    (head.actionsArg.toList.map Int32.toUInt32 ++ [head.actionsSize.toUInt32])), ?_⟩
  rw [Head.bytes, Head.words, hactions]
  rfl

/-- The head ends with its size. -/
theorem Head.bytes_last (head : Head) :
    ∃ front : Bytes, front.length = 160 ∧
      head.bytes = front ++ littleEndian 4 head.actionsSize.toUInt32.toNat := by
  refine ⟨wordsBytes (head.actions.toList ++ head.actionsArg.toList.map Int32.toUInt32), ?_, ?_⟩
  · simp
  · simp [Head.bytes, Head.words, wordsBytes]

set_option maxRecDepth 2000 in
/-- The head that `memset` left. -/
theorem Head.bytes_zero : (Head.ofBytes []).bytes = List.replicate 164 0 := by
  decide

/-! ## A load of new actions -/

theorem head_store (body : Bytes) :
    Head.ofBytes (store (Head.ofBytes []).bytes (body.take 164)) = headOf body := by
  rw [store, Head.bytes_zero, List.drop_replicate, Head.ofBytes_append_zeros, headOf]

theorem actionsSize_headOf (body : Bytes) :
    (headOf body).actionsSize.toUInt32 = UInt32.ofNat (value ((body.drop 160).take 4)) := by
  rw [headOf, Head.ofBytes, UInt32.toUInt32_toInt32, wordAt, List.drop_take, List.take_take]
  rfl

theorem length_store (body : Bytes) :
    value (store (littleEndian 8 0) (lengthBytes body)) = bcLen body := by
  rw [store, littleEndian_zero, List.drop_replicate, value_append_zeros, bcLen]

theorem fgetc_drop (body : Bytes) : (fgetc (body.drop 164)).2 = body.drop 165 := by
  rw [← List.drop_drop (i := 1) (j := 164)]
  cases body.drop 164 with
  | nil => rfl
  | cons byte file => rfl

/-- What is read of a record whose load is harmless. -/
structure Loads (env : Env JSValue) (body : Bytes) (ret : ℤ) (loaded : SigActions JSValue) :
    Prop where
  head : loaded.head = headOf body
  bcLen : loaded.bcLen = bcLen body
  bytecode : env.jsMalloc (ActionsFile.bcLen body) → loaded.bytecode = some (bytecodeOf env body)
  ret : ret = 0 ↔ env.jsMalloc (ActionsFile.bcLen body) ∧
    ¬ env.isException (env.readObject (bytecodeOf env body)) ∧
    ¬ env.isException (env.evalFunction (env.readObject (bytecodeOf env body)))

theorem loadBytecode_eq (env : Env JSValue) (actions : SigActions JSValue) (file : Bytes)
    {bytecode : Bytes}
    (hbytecode : store ((List.range actions.bcLen).map env.fresh) (file.take actions.bcLen) =
      bytecode) :
    ∃ ret func, loadBytecode env actions file =
        (ret, ⟨actions.head, some bytecode, actions.bcLen, env.readObject bytecode, func⟩,
          file.drop actions.bcLen) ∧
      (ret = 0 ↔ ¬ env.isException (env.readObject bytecode) ∧
        ¬ env.isException (env.evalFunction (env.readObject bytecode))) := by
  simp only [loadBytecode, fread, hbytecode]
  by_cases hread : env.isException (env.readObject bytecode)
  · rw [if_pos hread]
    exact ⟨-1, actions.func, rfl, by simp [hread]⟩
  · rw [if_neg hread]
    by_cases heval : env.isException (env.evalFunction (env.readObject bytecode))
    · rw [if_pos heval]
      exact ⟨-1, _, rfl, by simp [heval]⟩
    · rw [if_neg heval]
      exact ⟨0, _, rfl, by simp [hread, heval]⟩

theorem initAndLoad_eq (env : Env JSValue) (body : Bytes) :
    initAndLoad env body =
      if env.allocates then
        if 8 < (lengthBytes body).length then none
        else if bcLen body = 0 then none
        else if env.jsMalloc (bcLen body) then
          some (loadBytecode env ⟨headOf body, none, bcLen body, env.undefined, env.undefined⟩
            (afterLength body))
        else
          some (-1, ⟨headOf body, none, bcLen body, env.undefined, env.undefined⟩, afterLength body)
      else none := by
  rw [initAndLoad, sigActionsInit]
  by_cases hallocates : env.allocates
  · rw [if_pos hallocates, if_pos hallocates]
    simp only [Option.bind_eq_bind, Option.bind_some, sigActionsLoadFile, Option.isSome_none,
      Bool.false_eq_true, if_false, fread, head_store, fgetc_drop]
    rw [← lengthSize, ← lengthBytes, length_store, ← afterLength]
  · rw [if_neg hallocates, if_neg hallocates]
    rfl

theorem initAndLoad_of_harmless {env : Env JSValue} {body : Bytes} (hbody : Harmless env body) :
    ∃ ret loaded, initAndLoad env body = some (ret, loaded, afterBody env body) ∧
      Loads env body ret loaded := by
  rw [initAndLoad_eq, if_pos hbody.allocates, if_neg (Nat.not_lt.mpr hbody.length_fits),
    if_neg hbody.bcLen_ne_zero, afterBody]
  by_cases hmalloc : env.jsMalloc (bcLen body)
  · rw [if_pos hmalloc, if_pos hmalloc]
    obtain ⟨ret, func, hload, hret⟩ := loadBytecode_eq env
      ⟨headOf body, none, bcLen body, env.undefined, env.undefined⟩ (afterLength body) rfl
    rw [hload]
    exact ⟨ret, _, rfl, rfl, rfl, fun _ ↦ rfl, by rw [hret]; simp [hmalloc, bytecodeOf]⟩
  · rw [if_neg hmalloc, if_neg hmalloc]
    exact ⟨_, _, rfl, ⟨rfl, rfl, fun h ↦ absurd h hmalloc, by simp [hmalloc]⟩⟩

theorem initAndLoad_of_not_harmless {env : Env JSValue} {body : Bytes}
    (hbody : ¬ Harmless env body) : initAndLoad env body = none := by
  rw [initAndLoad_eq]
  by_cases hallocates : env.allocates
  · rw [if_pos hallocates]
    by_cases hlength : 8 < (lengthBytes body).length
    · rw [if_pos hlength]
    · rw [if_neg hlength, if_pos]
      by_contra hzero
      exact hbody ⟨hallocates, Nat.not_lt.mp hlength, hzero⟩
  · rw [if_neg hallocates]

/-! ## A load of what was saved -/

/-- Actions with their bytecode, as an extraction leaves them. -/
structure Extracted (actions : SigActions JSValue) (bytecode : Bytes) : Prop where
  head : actions.head.Extracted
  bytecode_eq : actions.bytecode = some bytecode
  bcLen_eq : actions.bcLen = bytecode.length
  length_lt : bytecode.length < 2 ^ 64

/-- What the file keeps of the actions. -/
def SigActions.saved (actions : SigActions JSValue) : Head × Option Bytes × ℕ :=
  (actions.head, actions.bytecode, actions.bcLen)

section Saved

variable {actions : SigActions JSValue} {bytecode : Bytes}

theorem sigActionsSaveFile_eq (hactions : Extracted actions bytecode) (rest : Bytes) :
    sigActionsSaveFile actions ++ rest =
      actions.head.bytes ++ 8 :: (littleEndian 8 bytecode.length ++ (bytecode ++ rest)) := by
  simp [sigActionsSaveFile, hactions.bytecode_eq, hactions.bcLen_eq]

theorem headOf_save (hactions : Extracted actions bytecode) (rest : Bytes) :
    headOf (sigActionsSaveFile actions ++ rest) = actions.head := by
  rw [headOf, sigActionsSaveFile_eq hactions, List.take_left' actions.head.bytes_length,
    Head.ofBytes_bytes]

theorem drop_save (hactions : Extracted actions bytecode) (rest : Bytes) :
    (sigActionsSaveFile actions ++ rest).drop 164 =
      8 :: (littleEndian 8 bytecode.length ++ (bytecode ++ rest)) := by
  rw [sigActionsSaveFile_eq hactions, List.drop_left' actions.head.bytes_length]

theorem lengthSize_save (hactions : Extracted actions bytecode) (rest : Bytes) :
    lengthSize (sigActionsSaveFile actions ++ rest) = 8 := by
  rw [lengthSize, drop_save hactions]
  rfl

theorem drop_head_save (hactions : Extracted actions bytecode) (rest : Bytes) :
    (sigActionsSaveFile actions ++ rest).drop 165 =
      littleEndian 8 bytecode.length ++ (bytecode ++ rest) := by
  rw [← fgetc_drop, drop_save hactions, fgetc]

theorem lengthBytes_save (hactions : Extracted actions bytecode) (rest : Bytes) :
    lengthBytes (sigActionsSaveFile actions ++ rest) = littleEndian 8 bytecode.length := by
  rw [lengthBytes, lengthSize_save hactions, drop_head_save hactions,
    List.take_left' (littleEndian_length 8 _)]

theorem bcLen_save (hactions : Extracted actions bytecode) (rest : Bytes) :
    bcLen (sigActionsSaveFile actions ++ rest) = bytecode.length := by
  have hlt : bytecode.length < 256 ^ 8 := hactions.length_lt
  rw [bcLen, lengthBytes_save hactions, value_littleEndian_of_lt hlt]

theorem afterLength_save (hactions : Extracted actions bytecode) (rest : Bytes) :
    afterLength (sigActionsSaveFile actions ++ rest) = bytecode ++ rest := by
  rw [afterLength, lengthSize_save hactions, drop_head_save hactions,
    List.drop_left' (littleEndian_length 8 _)]

theorem bytecodeOf_save (hactions : Extracted actions bytecode) (env : Env JSValue)
    (rest : Bytes) : bytecodeOf env (sigActionsSaveFile actions ++ rest) = bytecode := by
  rw [bytecodeOf, bcLen_save hactions, afterLength_save hactions, List.take_left, store]
  simp

theorem harmless_save_iff (hactions : Extracted actions bytecode) (env : Env JSValue)
    (rest : Bytes) :
    Harmless env (sigActionsSaveFile actions ++ rest) ↔ env.allocates ∧ bytecode ≠ [] := by
  constructor
  · intro h
    have hlength := h.bcLen_ne_zero
    rw [bcLen_save hactions] at hlength
    exact ⟨h.allocates, List.ne_nil_of_length_pos (Nat.pos_of_ne_zero hlength)⟩
  · rintro ⟨hallocates, hbytecode⟩
    refine ⟨hallocates, ?_, ?_⟩
    · rw [lengthBytes_save hactions, littleEndian_length]
    · rw [bcLen_save hactions]
      exact (List.length_pos_of_ne_nil hbytecode).ne'

/-- A load reads back what was saved, and nothing of what follows. -/
theorem initAndLoad_save (hactions : Extracted actions bytecode) {env : Env JSValue}
    (hallocates : env.allocates) (hmalloc : env.jsMalloc bytecode.length)
    (hbytecode : bytecode ≠ []) (rest : Bytes) :
    ∃ ret loaded, initAndLoad env (sigActionsSaveFile actions ++ rest) =
        some (ret, loaded, rest) ∧
      loaded.saved = actions.saved := by
  have hharmless := (harmless_save_iff hactions env rest).mpr ⟨hallocates, hbytecode⟩
  obtain ⟨ret, loaded, hload, hloads⟩ := initAndLoad_of_harmless hharmless
  have hmalloc' : env.jsMalloc (bcLen (sigActionsSaveFile actions ++ rest)) := by
    rwa [bcLen_save hactions]
  refine ⟨ret, loaded, ?_, ?_⟩
  · rw [hload, afterBody, if_pos hmalloc', bcLen_save hactions, afterLength_save hactions,
      List.drop_left]
  · rw [SigActions.saved, hloads.head, hloads.bcLen, hloads.bytecode hmalloc',
      headOf_save hactions, bcLen_save hactions, bytecodeOf_save hactions, SigActions.saved,
      hactions.bytecode_eq, hactions.bcLen_eq]

end Saved

end LibYtdl.Sig.ActionsFile
