/-
Opcode bytes: their names, and the literals among them. A byte from 1 to 75 is the length of a push
and has no name; the bytes from `OP_PUSHDATA1` to `OP_NOP10` are named in one run; `OP_0` stands
below and `OP_INVALIDOPCODE` above; every other byte is unknown.
-/
import CoinScript.Text.Hex

namespace CoinScript.Op

/-! ## Bytes with a part of their own -/

/-- Pushes the empty string. -/
@[match_pattern] abbrev zero : UInt8 := 0x00
/-- The greatest byte that is itself the length of a push. -/
@[match_pattern] abbrev directMax : UInt8 := 0x4b
/-- Announces a length of one byte. -/
@[match_pattern] abbrev pushData1 : UInt8 := 0x4c
/-- Announces a length of two bytes. -/
@[match_pattern] abbrev pushData2 : UInt8 := 0x4d
/-- Announces a length of four bytes. -/
@[match_pattern] abbrev pushData4 : UInt8 := 0x4e
@[match_pattern] abbrev negativeOne : UInt8 := 0x4f
@[match_pattern] abbrev one : UInt8 := 0x51
@[match_pattern] abbrev sixteen : UInt8 := 0x60
@[match_pattern] abbrev nop : UInt8 := 0x61
@[match_pattern] abbrev ifTrue : UInt8 := 0x63
@[match_pattern] abbrev ifFalse : UInt8 := 0x64
@[match_pattern] abbrev otherwise : UInt8 := 0x67
@[match_pattern] abbrev endIf : UInt8 := 0x68
@[match_pattern] abbrev verify : UInt8 := 0x69
@[match_pattern] abbrev ret : UInt8 := 0x6a
@[match_pattern] abbrev dropTwo : UInt8 := 0x6d
@[match_pattern] abbrev depth : UInt8 := 0x74
@[match_pattern] abbrev drop : UInt8 := 0x75
@[match_pattern] abbrev dup : UInt8 := 0x76
@[match_pattern] abbrev nip : UInt8 := 0x77
@[match_pattern] abbrev copySecond : UInt8 := 0x78
@[match_pattern] abbrev swap : UInt8 := 0x7c
@[match_pattern] abbrev size : UInt8 := 0x82
@[match_pattern] abbrev equal : UInt8 := 0x87
@[match_pattern] abbrev equalVerify : UInt8 := 0x88
@[match_pattern] abbrev addOne : UInt8 := 0x8b
@[match_pattern] abbrev subOne : UInt8 := 0x8c
@[match_pattern] abbrev not : UInt8 := 0x91
@[match_pattern] abbrev add : UInt8 := 0x93
@[match_pattern] abbrev sub : UInt8 := 0x94
@[match_pattern] abbrev numEqual : UInt8 := 0x9c
@[match_pattern] abbrev numEqualVerify : UInt8 := 0x9d
@[match_pattern] abbrev ripemd160 : UInt8 := 0xa6
@[match_pattern] abbrev sha1 : UInt8 := 0xa7
@[match_pattern] abbrev sha256 : UInt8 := 0xa8
@[match_pattern] abbrev hash160 : UInt8 := 0xa9
@[match_pattern] abbrev hash256 : UInt8 := 0xaa
@[match_pattern] abbrev codeSeparator : UInt8 := 0xab
@[match_pattern] abbrev checkSig : UInt8 := 0xac
@[match_pattern] abbrev checkSigVerify : UInt8 := 0xad
@[match_pattern] abbrev checkMultisig : UInt8 := 0xae
@[match_pattern] abbrev checkMultisigVerify : UInt8 := 0xaf
/-- The first of the ten bytes reserved to do nothing. -/
abbrev reservedNopMin : UInt8 := 0xb0
/-- The last of the ten bytes reserved to do nothing. -/
abbrev reservedNopMax : UInt8 := 0xb9
/-- Stands where an opcode is asked of something that is none. -/
abbrev invalid : UInt8 := 0xff

/-- A length field follows the byte. -/
def isPushDataLead (op : UInt8) : Bool :=
  op == pushData1 || op == pushData2 || op == pushData4

/-! ## Small integers -/

/-- The opcode that pushes a number from 1 to 16. -/
def ofSmallInt? (n : Nat) : Option UInt8 :=
  if 1 ≤ n ∧ n ≤ 16 then some (UInt8.ofNat (one.toNat + (n - 1))) else none

/-- The number from 1 to 16 that an opcode pushes. -/
def toSmallInt? (op : UInt8) : Option Nat :=
  if one ≤ op ∧ op ≤ sixteen then some (op.toNat - one.toNat + 1) else none

theorem toSmallInt?_of_ofSmallInt? {n : Nat} {op : UInt8} (h : ofSmallInt? n = some op) :
    toSmallInt? op = some n := by
  unfold ofSmallInt? at h
  split at h
  · next hn =>
    cases h
    have hall : ∀ n ≤ 16, 1 ≤ n → toSmallInt? (UInt8.ofNat (one.toNat + (n - 1))) = some n := by decide
    exact hall n hn.2 hn.1
  · cases h

/-! ## Names -/

/-- The names of the bytes from `OP_PUSHDATA1` on, in order. -/
def runNames : List String :=
  ["OP_PUSHDATA1", "OP_PUSHDATA2", "OP_PUSHDATA4", "OP_1NEGATE", "OP_RESERVED",
   "OP_1", "OP_2", "OP_3", "OP_4", "OP_5", "OP_6", "OP_7", "OP_8",
   "OP_9", "OP_10", "OP_11", "OP_12", "OP_13", "OP_14", "OP_15", "OP_16",
   "OP_NOP", "OP_VER", "OP_IF", "OP_NOTIF", "OP_VERIF", "OP_VERNOTIF", "OP_ELSE", "OP_ENDIF",
   "OP_VERIFY", "OP_RETURN",
   "OP_TOALTSTACK", "OP_FROMALTSTACK", "OP_2DROP", "OP_2DUP", "OP_3DUP", "OP_2OVER", "OP_2ROT",
   "OP_2SWAP", "OP_IFDUP", "OP_DEPTH", "OP_DROP", "OP_DUP", "OP_NIP", "OP_OVER", "OP_PICK",
   "OP_ROLL", "OP_ROT", "OP_SWAP", "OP_TUCK",
   "OP_CAT", "OP_SPLIT", "OP_NUM2BIN", "OP_BIN2NUM", "OP_SIZE",
   "OP_INVERT", "OP_AND", "OP_OR", "OP_XOR", "OP_EQUAL", "OP_EQUALVERIFY",
   "OP_RESERVED1", "OP_RESERVED2",
   "OP_1ADD", "OP_1SUB", "OP_2MUL", "OP_2DIV", "OP_NEGATE", "OP_ABS", "OP_NOT", "OP_0NOTEQUAL",
   "OP_ADD", "OP_SUB", "OP_MUL", "OP_DIV", "OP_MOD", "OP_LSHIFT", "OP_RSHIFT",
   "OP_BOOLAND", "OP_BOOLOR", "OP_NUMEQUAL", "OP_NUMEQUALVERIFY", "OP_NUMNOTEQUAL",
   "OP_LESSTHAN", "OP_GREATERTHAN", "OP_LESSTHANOREQUAL", "OP_GREATERTHANOREQUAL",
   "OP_MIN", "OP_MAX", "OP_WITHIN",
   "OP_RIPEMD160", "OP_SHA1", "OP_SHA256", "OP_HASH160", "OP_HASH256", "OP_CODESEPARATOR",
   "OP_CHECKSIG", "OP_CHECKSIGVERIFY", "OP_CHECKMULTISIG", "OP_CHECKMULTISIGVERIFY",
   "OP_NOP1", "OP_CHECKLOCKTIMEVERIFY", "OP_CHECKSEQUENCEVERIFY", "OP_NOP4", "OP_NOP5",
   "OP_NOP6", "OP_NOP7", "OP_NOP8", "OP_NOP9", "OP_NOP10"]

/-- The run of names ends with the last reserved byte. -/
example : runNames.length = reservedNopMax.toNat + 1 - pushData1.toNat := by decide

/-- The name that stands for one byte alone. -/
def knownName? (op : UInt8) : Option String :=
  if op = zero then some "OP_0"
  else if op = invalid then some "OP_INVALIDOPCODE"
  else if op < pushData1 then none
  else runNames[op.toNat - pushData1.toNat]?

/-- The name of a byte; lengths of direct pushes have none, unknown bytes share one. -/
def name? (op : UInt8) : Option String :=
  if zero < op ∧ op ≤ directMax then none else some ((knownName? op).getD "OP_UNKNOWN")

/-- The token of an opcode in a script's text: its name, or its value if no name is its own. -/
def token (op : UInt8) : String :=
  (knownName? op).getD ("OP_UNKNOWN_" ++ Hex.ofByte op)

end CoinScript.Op
