import DevTools.Lib.OpenAddressing

/-!
# The daemon's hash map

`hashmap.c` hashes a string into a table of slots and probes at most eight slots from there. A
table that is half full, or in which the eight slots are taken, is doubled, and everything is put
again. The model follows the C code; `hashmap_put` and `_hashmap_rehash` call each other, and the
fuel of `hashmapPut` bounds that.
-/

namespace DevTools.Daemon

/-! ## The hash function -/

/-- A C string, without its terminator. -/
abbrev CStr := List UInt8

def crc32_tab : List Nat :=
  [0x00000000, 0x77073096, 0xee0e612c, 0x990951ba, 0x076dc419, 0x706af48f, 0xe963a535, 0x9e6495a3,
   0x0edb8832, 0x79dcb8a4, 0xe0d5e91e, 0x97d2d988, 0x09b64c2b, 0x7eb17cbd, 0xe7b82d07, 0x90bf1d91,
   0x1db71064, 0x6ab020f2, 0xf3b97148, 0x84be41de, 0x1adad47d, 0x6ddde4eb, 0xf4d4b551, 0x83d385c7,
   0x136c9856, 0x646ba8c0, 0xfd62f97a, 0x8a65c9ec, 0x14015c4f, 0x63066cd9, 0xfa0f3d63, 0x8d080df5,
   0x3b6e20c8, 0x4c69105e, 0xd56041e4, 0xa2677172, 0x3c03e4d1, 0x4b04d447, 0xd20d85fd, 0xa50ab56b,
   0x35b5a8fa, 0x42b2986c, 0xdbbbc9d6, 0xacbcf940, 0x32d86ce3, 0x45df5c75, 0xdcd60dcf, 0xabd13d59,
   0x26d930ac, 0x51de003a, 0xc8d75180, 0xbfd06116, 0x21b4f4b5, 0x56b3c423, 0xcfba9599, 0xb8bda50f,
   0x2802b89e, 0x5f058808, 0xc60cd9b2, 0xb10be924, 0x2f6f7c87, 0x58684c11, 0xc1611dab, 0xb6662d3d,
   0x76dc4190, 0x01db7106, 0x98d220bc, 0xefd5102a, 0x71b18589, 0x06b6b51f, 0x9fbfe4a5, 0xe8b8d433,
   0x7807c9a2, 0x0f00f934, 0x9609a88e, 0xe10e9818, 0x7f6a0dbb, 0x086d3d2d, 0x91646c97, 0xe6635c01,
   0x6b6b51f4, 0x1c6c6162, 0x856530d8, 0xf262004e, 0x6c0695ed, 0x1b01a57b, 0x8208f4c1, 0xf50fc457,
   0x65b0d9c6, 0x12b7e950, 0x8bbeb8ea, 0xfcb9887c, 0x62dd1ddf, 0x15da2d49, 0x8cd37cf3, 0xfbd44c65,
   0x4db26158, 0x3ab551ce, 0xa3bc0074, 0xd4bb30e2, 0x4adfa541, 0x3dd895d7, 0xa4d1c46d, 0xd3d6f4fb,
   0x4369e96a, 0x346ed9fc, 0xad678846, 0xda60b8d0, 0x44042d73, 0x33031de5, 0xaa0a4c5f, 0xdd0d7cc9,
   0x5005713c, 0x270241aa, 0xbe0b1010, 0xc90c2086, 0x5768b525, 0x206f85b3, 0xb966d409, 0xce61e49f,
   0x5edef90e, 0x29d9c998, 0xb0d09822, 0xc7d7a8b4, 0x59b33d17, 0x2eb40d81, 0xb7bd5c3b, 0xc0ba6cad,
   0xedb88320, 0x9abfb3b6, 0x03b6e20c, 0x74b1d29a, 0xead54739, 0x9dd277af, 0x04db2615, 0x73dc1683,
   0xe3630b12, 0x94643b84, 0x0d6d6a3e, 0x7a6a5aa8, 0xe40ecf0b, 0x9309ff9d, 0x0a00ae27, 0x7d079eb1,
   0xf00f9344, 0x8708a3d2, 0x1e01f268, 0x6906c2fe, 0xf762575d, 0x806567cb, 0x196c3671, 0x6e6b06e7,
   0xfed41b76, 0x89d32be0, 0x10da7a5a, 0x67dd4acc, 0xf9b9df6f, 0x8ebeeff9, 0x17b7be43, 0x60b08ed5,
   0xd6d6a3e8, 0xa1d1937e, 0x38d8c2c4, 0x4fdff252, 0xd1bb67f1, 0xa6bc5767, 0x3fb506dd, 0x48b2364b,
   0xd80d2bda, 0xaf0a1b4c, 0x36034af6, 0x41047a60, 0xdf60efc3, 0xa867df55, 0x316e8eef, 0x4669be79,
   0xcb61b38c, 0xbc66831a, 0x256fd2a0, 0x5268e236, 0xcc0c7795, 0xbb0b4703, 0x220216b9, 0x5505262f,
   0xc5ba3bbe, 0xb2bd0b28, 0x2bb45a92, 0x5cb36a04, 0xc2d7ffa7, 0xb5d0cf31, 0x2cd99e8b, 0x5bdeae1d,
   0x9b64c2b0, 0xec63f226, 0x756aa39c, 0x026d930a, 0x9c0906a9, 0xeb0e363f, 0x72076785, 0x05005713,
   0x95bf4a82, 0xe2b87a14, 0x7bb12bae, 0x0cb61b38, 0x92d28e9b, 0xe5d5be0d, 0x7cdcefb7, 0x0bdbdf21,
   0x86d3d2d4, 0xf1d4e242, 0x68ddb3f8, 0x1fda836e, 0x81be16cd, 0xf6b9265b, 0x6fb077e1, 0x18b74777,
   0x88085ae6, 0xff0f6a70, 0x66063bca, 0x11010b5c, 0x8f659eff, 0xf862ae69, 0x616bffd3, 0x166ccf45,
   0xa00ae278, 0xd70dd2ee, 0x4e048354, 0x3903b3c2, 0xa7672661, 0xd06016f7, 0x4969474d, 0x3e6e77db,
   0xaed16a4a, 0xd9d65adc, 0x40df0b66, 0x37d83bf0, 0xa9bcae53, 0xdebb9ec5, 0x47b2cf7f, 0x30b5ffe9,
   0xbdbdf21c, 0xcabac28a, 0x53b39330, 0x24b4a3a6, 0xbad03605, 0xcdd70693, 0x54de5729, 0x23d967bf,
   0xb3667a2e, 0xc4614ab8, 0x5d681b02, 0x2a6f2b94, 0xb40bbe37, 0xc30c8ea1, 0x5a05df1b, 0x2d02ef8d]

/-- `crc32(s, len)`; `len` is an `unsigned int`. -/
def crc32 (s : CStr) : Nat :=
  (s.take (s.length % 2 ^ 32)).foldl (fun crc32val c =>
    crc32_tab.getD ((crc32val ^^^ c.toNat) &&& 0xff) 0 ^^^ (crc32val >>> 8)) 0

/-- The mixing of `_find_hash_index`, in `unsigned long`. -/
def mix (key : Nat) : Nat :=
  let key := (key + key <<< 12) % 2 ^ 64
  let key := key ^^^ (key >>> 22)
  let key := (key + key <<< 4) % 2 ^ 64
  let key := key ^^^ (key >>> 9)
  let key := (key + key <<< 10) % 2 ^ 64
  let key := key ^^^ (key >>> 2)
  let key := (key + key <<< 7) % 2 ^ 64
  let key := key ^^^ (key >>> 12)
  (key >>> 3) * 0x9E3779B1 % 2 ^ 64

/-- `_find_hash_index`. -/
def findHashIndex (table_size : Nat) (keystring : CStr) : Nat := mix (crc32 keystring) % table_size

/-! ## The table -/

def HMAP_INITIAL_SIZE : Nat := 256

def HMAP_CHAIN_LENGTH : Nat := 8

inductive Status
  | HMAP_E_KEYUSED
  | HMAP_E_OUTMEM
  | HMAP_E_NOTFOUND
  | HMAP_S_OK
  deriving DecidableEq, Repr

/-- A `hashmap_map_t`; a slot with a key and data is `hashmap_used_1`, any other one is
`hashmap_unused_0`. -/
structure HashMap (β : Type) where
  table_size : Nat
  size : Int
  elems : Slots CStr β

/-- The values of `curr` in `n` turns of a probing loop. -/
def probes (table_size : Nat) : Nat → Nat → List Nat
  | 0, _ => []
  | n + 1, curr => curr :: probes table_size n ((curr + 1) % table_size)

/-- The slots where the loops look for a key. -/
def window (table_size : Nat) (key : CStr) : List Nat :=
  probes table_size HMAP_CHAIN_LENGTH (findHashIndex table_size key)

namespace HashMap

variable {β : Type}

/-- `hashmap_create()`. -/
def hashmapCreate : HashMap β := ⟨HMAP_INITIAL_SIZE, 0, fun _ => none⟩

/-- "If full, return immediately". -/
def halfFull (m : HashMap β) : Prop := (m.table_size / 2 : Nat) ≤ m.size

instance (m : HashMap β) : Decidable m.halfFull := inferInstanceAs (Decidable (_ ≤ _))

/-- `_hashmap_hash`; `none` is `HMAP_E_OVERFLOW`. -/
def hashmapHash (m : HashMap β) (key : CStr) : Option Nat :=
  if m.halfFull then none else (window m.table_size key).find? (m.elems.stops key)

/-- The end of `hashmap_put`, on the slot that was found. -/
def store (m : HashMap β) (index : Nat) (key : CStr) (value : β) : Status × HashMap β :=
  match m.elems index with
  | some _ => (.HMAP_E_KEYUSED, m)
  | none =>
    (.HMAP_S_OK, { m with size := m.size + 1
                          elems := Function.update m.elems index (some (key, value)) })

/-- The loop of `_hashmap_rehash` over the old slots. -/
def rehashLoop (put : HashMap β → CStr → β → Option (Status × HashMap β)) (old : Slots CStr β) :
    List Nat → HashMap β → Option (Status × HashMap β)
  | [], m => some (.HMAP_S_OK, m)
  | i :: rest, m => match old i with
    | none => rehashLoop put old rest m
    | some elem => match put m elem.1 elem.2 with
      | none => none
      | some (.HMAP_S_OK, m') => rehashLoop put old rest m'
      | some (status, m') => some (status, m')

/-- `_hashmap_rehash`, with `put` for its calls of `hashmap_put`. `calloc` says which sizes can be
had; a table of `2 ^ 30` slots cannot be doubled in an `int`. -/
def hashmapRehash (calloc : Nat → Bool)
    (put : HashMap β → CStr → β → Option (Status × HashMap β)) (m : HashMap β) :
    Option (Status × HashMap β) :=
  if 2 * m.table_size < 2 ^ 31 ∧ calloc (2 * m.table_size) then
    rehashLoop put m.elems (List.range m.table_size) ⟨2 * m.table_size, 0, fun _ => none⟩
  else some (.HMAP_E_OUTMEM, m)

/-- `hashmap_put`; `none` when the fuel does not last. A rehashing that ends with another status
than `HMAP_E_OUTMEM` counts as done. -/
def hashmapPut (calloc : Nat → Bool) :
    Nat → HashMap β → CStr → β → Option (Status × HashMap β)
  | 0, m, key, value => (m.hashmapHash key).map fun index => m.store index key value
  | fuel + 1, m, key, value => match m.hashmapHash key with
    | some index => some (m.store index key value)
    | none => match hashmapRehash calloc (hashmapPut calloc fuel) m with
      | none => none
      | some (.HMAP_E_OUTMEM, m') => some (.HMAP_E_OUTMEM, m')
      | some (_, m') => hashmapPut calloc fuel m' key value

/-- `hashmap_get`, with `*value`. -/
def hashmapGet (m : HashMap β) (key : CStr) : Status × Option β :=
  match (window m.table_size key).find? (m.elems.holds key) with
  | some curr => (.HMAP_S_OK, (m.elems curr).map Prod.snd)
  | none => (.HMAP_E_NOTFOUND, none)

/-- `hashmap_remove`, with `*outValue`. -/
def hashmapRemove (m : HashMap β) (key : CStr) : (Status × Option β) × HashMap β :=
  match (window m.table_size key).find? (m.elems.holds key) with
  | some curr =>
    ((.HMAP_S_OK, (m.elems curr).map Prod.snd),
      { m with size := m.size - 1, elems := Function.update m.elems curr none })
  | none => ((.HMAP_E_NOTFOUND, none), m)

/-- `hashmap_size`. -/
def hashmapSize (m : HashMap β) : Int := m.size

end HashMap

end DevTools.Daemon
