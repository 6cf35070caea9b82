/-
  RakHook.VersionManager — which `samp.dll` is loaded and where its parts are
  (include/RakHook/version_manager.hpp).

  `Env` is what the process shows at the moment of a call: the module's base, or 0, the
  entry point its PE header names, and its memory, a word at an address.
-/

namespace RakHook

abbrev Addr := BitVec 32

structure Env where
  getModuleHandle : Addr
  addressOfEntryPoint : Addr
  deref : Addr → Addr

structure VersionOffsets where
  sampInfo : Addr
  rakclientInterface : Addr
  handleRpcPacket : Addr
  allocPacket : Addr
  offsetPackets : Addr
  writeLock : Addr
  writeUnlock : Addr
  deriving DecidableEq, Repr

structure VersionManager where
  versions : Addr → Option VersionOffsets
  base : Addr
  currentEntryPoint : Addr
  currentOffsets : VersionOffsets

namespace VersionManager

def noOffsets : VersionOffsets := ⟨0, 0, 0, 0, 0, 0, 0⟩

def addVersion (v : VersionManager) (entryPoint : Addr) (offsets : VersionOffsets) : VersionManager :=
  { v with versions := fun e => if e = entryPoint then some offsets else v.versions e }

def valid (v : VersionManager) : Bool := (v.versions v.currentEntryPoint).isSome

def get (v : VersionManager) : VersionOffsets := v.currentOffsets

def update (v : VersionManager) (env : Env) : VersionManager :=
  if env.getModuleHandle = 0 then { v with base := 0, currentEntryPoint := 0, currentOffsets := noOffsets }
  else
    { v with
      base := env.getModuleHandle
      currentEntryPoint := env.addressOfEntryPoint
      currentOffsets := (v.versions env.addressOfEntryPoint).getD noOffsets }

/-- `version_manager()`, up to its `update()`. -/
def known : VersionManager :=
  ((({ versions := fun _ => none, base := 0, currentEntryPoint := 0, currentOffsets := noOffsets : VersionManager }.addVersion
      -- 0.3.7 R1
      0x31DF13 ⟨0x21a0f8, 0x3c9, 0x372f0, 0x347e0, 0xdb6, 0x35b10, 0x35b50⟩).addVersion
      -- 0.3.7 R3-1
      0xCC4D0 ⟨0x26e8dc, 0x2c, 0x3a6a0, 0x37b90, 0xdb6, 0x38ec0, 0x38f00⟩).addVersion
      -- 0.3.7 R4
      0xCBCB0 ⟨0x26ea0c, 0x2c, 0x3ad90, 0x38280, 0xdb6, 0x395b0, 0x395f0⟩).addVersion
      -- 0.3.DL R1
      0xFDB60 ⟨0x2aca24, 0x3c9, 0x3a8a0, 0x37d90, 0xdb6, 0x390c0, 0x39100⟩

/-- `version_manager()`. -/
def new (env : Env) : VersionManager := known.update env

end VersionManager

end RakHook
