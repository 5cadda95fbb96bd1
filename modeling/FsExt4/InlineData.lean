import FsExt4.DirEntry
import FsExt4.Xattr

namespace FsExt4.InlineData

open Lib Dir

def inlineDotdotSize : Nat := 4
def inlineBlockSize : Nat := 60

def dotName : Bytes := [0x2E]
def dotdotName : Bytes := [0x2E, 0x2E]

def dirEntries (dirIno : UInt32) (inode : Inode) (continuation : Bytes) (hasFileType : Bool) :
    Result (List DirEntry) := do
  let parent := u32leAt inode.block 0
  if parent = 0 then throw (.corruptDirEntry "inline directory: parent inode number is 0")
  let inBlock ← (dirBlockIter hasFileType (inode.block.drop inlineDotdotSize)).mapM id
  let continued ← (dirBlockIter hasFileType continuation).mapM id
  return ⟨dirIno, dotName, .directory⟩ :: ⟨parent, dotdotName, .directory⟩ :: (inBlock ++ continued)

def dirContinuation (inode : Inode) (inodeRaw : Bytes) (inodeSize blockSize : Nat) :
    DevIo Bytes := do
  if inode.size ≤ inlineBlockSize then return []
  let need := inode.size - inlineBlockSize
  match ← Xattr.get inode inodeRaw inodeSize blockSize Xattr.systemData with
  | none => .fail (.corrupt "inline directory larger than 60 bytes has no system.data xattr")
  | some extra =>
    if extra.length < need then
      .fail (.corrupt "inline directory's system.data xattr is shorter than its size claims")
    else return extra.take need

def readDir (dirIno : UInt32) (inode : Inode) (inodeRaw : Bytes) (inodeSize blockSize : Nat)
    (hasFileType : Bool) : DevIo (List DirEntry) := do
  let continuation ← dirContinuation inode inodeRaw inodeSize blockSize
  liftM (dirEntries dirIno inode continuation hasFileType)

end FsExt4.InlineData
