import Tflib.Conf.File
import Tflib.Core.Writes
import Tflib.Data.Format

/-! # The settings that `initialize` copies

`process_mgr` is one block of memory, and its string fields are arrays of
`MAX_FILENAME_LEN` bytes between the others. The assignments are made here in the
order of `config.c`, which is not the order of the fields, and `strcpy` copies a
value whatever its length.
-/

namespace Tflib.Nac

open Tflib.Core Tflib.Conf Tflib.Data Tflib.Util

/-- The fields of `PROCESS_MGR_ST` that `initialize` assigns from the file, or resets. -/
inductive Field
  | logFile
  | logLevel
  | reload
  | appId
  | deviceId
  | serverFd
  | serverIp
  | serverPort
  | socketTimeout
  | connections
  | cycleStep
  | appSharePath
  | appMemoryId
  | deviceQueuePath
  | deviceInMsgId
  | deviceInQueueId
  | deviceOutMsgId
  | deviceOutQueueId
  deriving DecidableEq

namespace Field

/-- The distance of a field from the start of the block. -/
def addr : Field → Nat
  | logFile => 128
  | logLevel => 256
  | reload => 257
  | appId => 260
  | deviceId => 264
  | serverFd => 268
  | serverIp => 272
  | serverPort => 276
  | socketTimeout => 278
  | connections => 280
  | cycleStep => 284
  | appSharePath => 296
  | appMemoryId => 424
  | deviceQueuePath => 428
  | deviceInMsgId => 556
  | deviceInQueueId => 560
  | deviceOutMsgId => 564
  | deviceOutQueueId => 568

def size : Field → Nat
  | logFile | appSharePath | deviceQueuePath => maxFilenameLen
  | logLevel | reload => 1
  | serverPort | socketTimeout | connections => 2
  | _ => 4

def IsString : Field → Prop
  | logFile | appSharePath | deviceQueuePath => True
  | _ => False

instance (f : Field) : Decidable f.IsString := by
  cases f <;> unfold IsString <;> infer_instance

end Field

/-- The values of the string settings. -/
structure StringSettings where
  logFile : CString
  appSharePath : CString
  deviceQueuePath : CString
  deriving DecidableEq

/-- What `cfg_get_int`, `cfg_get_bool` and `tfnet_pton` give for the others. -/
structure NumberSettings where
  logLevel : UInt8
  appId : UInt32
  deviceId : UInt32
  reload : Bool
  appMemoryId : UInt32
  deviceInMsgId : UInt32
  deviceOutMsgId : UInt32
  serverIp : UInt32
  serverPort : UInt16
  socketTimeout : UInt16
  cycleStep : UInt32

/-- A number of `width` bytes in memory. -/
def numberBytes (width n : Nat) : Bytes := (netBytes width n).reverse

structure Assignment where
  field : Field
  bytes : Bytes

def Assignment.write (a : Assignment) : Write := ⟨a.field.addr, a.bytes⟩

/-- `process_mgr->field = n` -/
def assign (f : Field) (n : Nat) : Assignment := ⟨f, numberBytes f.size n⟩

/-- `strcpy(process_mgr->field, value)` -/
def strcpy (f : Field) (value : CString) : Assignment := ⟨f, value.bytes⟩

/-- The assignments of `initialize`, one after the other. -/
def assignments (v : StringSettings) (n : NumberSettings) : List Assignment :=
  [assign .logLevel n.logLevel.toNat, strcpy .logFile v.logFile,
    assign .appId n.appId.toNat, assign .deviceId n.deviceId.toNat,
    assign .reload n.reload.toNat,
    strcpy .appSharePath v.appSharePath, assign .appMemoryId n.appMemoryId.toNat,
    strcpy .deviceQueuePath v.deviceQueuePath, assign .deviceInMsgId n.deviceInMsgId.toNat,
    assign .deviceOutMsgId n.deviceOutMsgId.toNat,
    assign .serverIp n.serverIp.toNat, assign .serverPort n.serverPort.toNat,
    assign .socketTimeout n.socketTimeout.toNat, assign .cycleStep n.cycleStep.toNat,
    assign .serverFd 0, assign .connections 0,
    -- `-1`
    assign .deviceInQueueId (2 ^ 32 - 1), assign .deviceOutQueueId (2 ^ 32 - 1)]

/-- `cfg_get_string(group, key, dft)`; NULL would not be copied. -/
def stringSetting (cfg : CfgState) (group : Conf.CfgGroup) (key dft : CString) : Option CString := do
  let value ← cfgGetString cfg.heap (some group) key (some dft)
  value

/-- The strings of the `general` group of a file with these lines; the inner `none` is a file
without the group. -/
def stringSettings (lines : List CString) : Option (Option StringSettings) := do
  let cfg ← cfgCreate lines
  let found ← cfgFindGroup cfg.groups ⟨literal "general", by decide⟩
  match found with
  | none => some none
  | some group => do
      let logFile ← stringSetting cfg group ⟨literal "log_file_name", by decide⟩
        ⟨literal "/tmp/nac-service.log", by decide⟩
      let appSharePath ← stringSetting cfg group ⟨literal "app_share_path", by decide⟩
        ⟨literal "/opt/kris/etc/memory.ipc", by decide⟩
      let deviceQueuePath ← stringSetting cfg group ⟨literal "device_queue_path", by decide⟩
        ⟨literal "/opt/kris/etc/msgqueue.ipc", by decide⟩
      some (some ⟨logFile, appSharePath, deviceQueuePath⟩)

/-- A setting has the value on the first line of its group that answers, else the default. -/
theorem stringSetting_answers {lines : List CString} (fits : ∀ line ∈ lines, NameFits line)
    {cfg : CfgState} {g : CString} {group : Conf.CfgGroup} (create : cfgCreate lines = some cfg)
    (find : cfgFindGroup cfg.groups g = some (some group)) (key dft : CString) :
    ∃ value, FirstAnswer lines (folded g) key value ∧
      stringSetting cfg group key dft = some (value.getD dft) := by
  obtain ⟨state, names, hstate, hholds, -⟩ := CfgState.holds_start.lines fits
  obtain rfl : state = cfg := Option.some.inj (hstate.symm.trans create)
  obtain ⟨found, hfound, hget⟩ := hholds.lookup g key (some dft)
  obtain rfl : found = some group := Option.some.inj (hfound.symm.trans find)
  refine ⟨_, (doc_answers lines).2 (folded g) key, ?_⟩
  simp only [stringSetting, hget, Option.bind_eq_bind, Option.bind_some]
  cases lookup ((lines.foldl Doc.line .start).pairs (folded g)) key with
  | none => rfl
  | some value => rfl

/-! ## What the assignments do to each other -/

/-- Every assignment stays in its field, every string field holds a terminated string, and at the
end every field reads as it was assigned. -/
structure Kept (as : List Assignment) (m : Memory) : Prop where
  inside : ∀ a ∈ as, a.bytes.length ≤ a.field.size
  terminated : ∀ a ∈ as, a.field.IsString →
    ∃ i < a.field.size, Write.applyAll m (as.map Assignment.write) (a.field.addr + i) = 0
  reads : ∀ a ∈ as, (Write.applyAll m (as.map Assignment.write)).load a.field.addr a.bytes.length =
    a.bytes

/-- `initialize` keeps the settings of the file apart, whatever its other settings are and whatever
`process_mgr` held before. -/
def KeepsSettings (lines : List CString) : Prop :=
  ∀ v, stringSettings lines = some (some v) → ∀ n m, Kept (assignments v n) m

/-- Every string setting fits into its field with its terminator. -/
def ShortSettings (lines : List CString) : Prop :=
  ∀ v, stringSettings lines = some (some v) → v.logFile.val.length < maxFilenameLen ∧
    v.appSharePath.val.length < maxFilenameLen ∧ v.deviceQueuePath.val.length < maxFilenameLen

def Field.Apart (f g : Field) : Prop := f.addr + f.size ≤ g.addr ∨ g.addr + g.size ≤ f.addr

instance (f g : Field) : Decidable (f.Apart g) := inferInstanceAs (Decidable (_ ∨ _))

/-- No field is assigned twice, and fields have no byte in common. -/
theorem assignments_apart (v : StringSettings) (n : NumberSettings) :
    (assignments v n).Pairwise fun a b => a.field.Apart b.field := by
  rw [← List.pairwise_map]
  change List.Pairwise Field.Apart [.logLevel, .logFile, .appId, .deviceId, .reload, .appSharePath,
    .appMemoryId, .deviceQueuePath, .deviceInMsgId, .deviceOutMsgId, .serverIp, .serverPort,
    .socketTimeout, .cycleStep, .serverFd, .connections, .deviceInQueueId, .deviceOutQueueId]
  decide

/-- The fields with strings are assigned by `strcpy`. -/
theorem assignments_strings (v : StringSettings) (n : NumberSettings) :
    ∀ a ∈ assignments v n, a.field.IsString → ∃ value : CString, a.bytes = value.bytes := by
  simp only [assignments, List.forall_mem_cons, List.not_mem_nil, assign, strcpy, Field.IsString,
    false_implies, implies_true, true_implies, true_and, and_true]
  exact ⟨⟨v.logFile, rfl⟩, ⟨v.appSharePath, rfl⟩, ⟨v.deviceQueuePath, rfl⟩⟩

theorem assign_length (f : Field) (n : Nat) : (assign f n).bytes.length = f.size := by
  simp [assign, numberBytes]

theorem strcpy_length (f : Field) (value : CString) :
    (strcpy f value).bytes.length = value.val.length + 1 := by
  simp [strcpy, CString.bytes]

/-- Only a string can leave its field. -/
theorem assignments_inside (v : StringSettings) (n : NumberSettings) :
    (∀ a ∈ assignments v n, a.bytes.length ≤ a.field.size) ↔
      v.logFile.val.length < maxFilenameLen ∧ v.appSharePath.val.length < maxFilenameLen ∧
        v.deviceQueuePath.val.length < maxFilenameLen := by
  have hassign : ∀ f n, (assign f n).bytes.length ≤ (assign f n).field.size :=
    fun f n => Nat.le_of_eq (assign_length f n)
  simp only [assignments, List.forall_mem_cons, hassign, strcpy_length, true_and, List.not_mem_nil,
    false_implies, implies_true, and_true]
  exact Iff.rfl

/-- Assignments that stay in fields apart from each other are all kept. -/
theorem kept_of_inside {as : List Assignment} {m : Memory}
    (apart : as.Pairwise fun a b => a.field.Apart b.field)
    (strings : ∀ a ∈ as, a.field.IsString → ∃ value : CString, a.bytes = value.bytes)
    (inside : ∀ a ∈ as, a.bytes.length ≤ a.field.size) : Kept as m := by
  have hmisses : (as.map Assignment.write).Pairwise fun v w => w.Misses v.addr v.bytes.length := by
    rw [List.pairwise_map]
    refine apart.imp_of_mem fun {a b} ha hb hab => Write.misses_of_inside (inside b hb) ?_
    have hin := inside a ha
    unfold Field.Apart at hab
    change a.field.addr + a.bytes.length ≤ b.field.addr ∨ b.field.addr + _ ≤ a.field.addr
    omega
  have hreads : ∀ a ∈ as, (Write.applyAll m (as.map Assignment.write)).load a.field.addr
      a.bytes.length = a.bytes := fun a ha => Write.load_applyAll hmisses (List.mem_map_of_mem ha)
  refine ⟨inside, fun a ha hstring => ?_, hreads⟩
  obtain ⟨value, hvalue⟩ := strings a ha hstring
  have hlen : a.bytes.length = value.val.length + 1 := by simp [hvalue, CString.bytes]
  have hin := inside a ha
  refine ⟨value.val.length, by omega, ?_⟩
  have hget := congrArg (fun bs => bs[value.val.length]?) (hreads a ha)
  simp only [Memory.load_getElem? _ _ _ _ (show value.val.length < a.bytes.length by omega)] at hget
  rw [hvalue] at hget
  simpa [CString.bytes] using hget

/-- A name of 128 bytes for the log file. -/
def longLogName : List CString :=
  [⟨literal "[general]", by decide⟩,
    ⟨literal "log_file_name=" ++ List.replicate maxFilenameLen 97, by decide⟩]

end Tflib.Nac
