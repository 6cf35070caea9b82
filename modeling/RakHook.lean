import RakHook.Lib.Word
import RakHook.Lib.Bits
import RakHook.Lib.Compressed
import RakHook.Lib.Run
import RakHook.Lib.Calls
import RakHook.Lib.Heap
import RakHook.Lib.CodeTree
import RakHook.Lib.Huffman
import RakHook.BitStream.Model
import RakHook.BitStream.View
import RakHook.BitStream.Read
import RakHook.BitStream.Write
import RakHook.BitStream.Construct
import RakHook.BitStream.Ops
import RakHook.BitStream.Calls
import RakHook.BitStream.Storage
import RakHook.BitStream.LeftAligned
import RakHook.BitStream.Fields
import RakHook.DataStructures.Queue
import RakHook.DataStructures.LinkedList
import RakHook.DataStructures.List
import RakHook.DataStructures.OrderedList
import RakHook.DataStructures.Map
import RakHook.Huffman.Model
import RakHook.Huffman.Generate
import RakHook.Huffman.Table
import RakHook.Huffman.Code
import RakHook.Huffman.Optimal
import RakHook.Compressor.Model
import RakHook.Compressor.Trees
import RakHook.Compressor.Text
import RakHook.Compressor.Lifetime
import RakHook.Compressor.Exchange
import RakHook.Signal.Call
import RakHook.Signal.Fold
import RakHook.Rpc.Model
import RakHook.Rpc.Format
import RakHook.Rpc.Parse
import RakHook.Rpc.Rebuild
import RakHook.Rpc.Release
import RakHook.Rpc.Observe
import RakHook.Example.Model
import RakHook.Example.Events
import RakHook.Example.Incoming
import RakHook.VersionManager
import RakHook.VersionHistory
import RakHook.Hooker.Model
import RakHook.Hooker.Setup
import RakHook.Hooker.Lifecycle
import RakHook.Hooker.Session
import RakHook.Hooker.Detours
import RakHook.Hooker.Drain
import RakHook.Hooker.Outgoing
import RakHook.Hooker.Trampoline
import RakHook.Signal.Reentry
import RakHook.Signal.Persist
import RakHook.Wrappers.Model
import RakHook.Wrappers.Machine
import RakHook.Wrappers.Report
import RakHook.Wrappers.HookUp
import RakHook.Wrappers.Sharing
import RakHook.Wrappers.Originals
