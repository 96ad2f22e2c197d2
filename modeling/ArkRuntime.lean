import ArkRuntime.TaggedTree.SetAll
import ArkRuntime.TaggedList.DoubleList
import ArkRuntime.TaggedList.JSAPIList
import ArkRuntime.Array.SortElements
import ArkRuntime.Array.LexicographicCompare
import ArkRuntime.Array.IndexOf
import ArkRuntime.LinkedHash.MapIteratorToList
import ArkRuntime.Queue.Back
import ArkRuntime.Queue.JSAPIDeque
import ArkRuntime.LightWeight.LightWeightMap
import ArkRuntime.LightWeight.MapValues
import ArkRuntime.LightWeight.PlainArrayProperty
import ArkRuntime.LightWeight.SetRun
import ArkRuntime.LightWeight.SetCompare
import ArkRuntime.BigInt.AsIntN
import ArkRuntime.BigInt.Numeral
import ArkRuntime.BigInt.FromNumber
import ArkRuntime.BigInt.CompareAssertion
import ArkRuntime.BigInt.Exponentiate
import ArkRuntime.BigInt.SizeErrors
import ArkRuntime.Date.TransferTime
import ArkRuntime.RegExp.Executor
import ArkRuntime.RegExp.ClassBytes
import ArkRuntime.RegExp.CaptureReset
import ArkRuntime.RegExp.Boundaries
import ArkRuntime.RegExp.FixedArrays
import ArkRuntime.KeyHash.Agreement
import ArkRuntime.TaggedHash.HashMapRuns
import ArkRuntime.TaggedHash.CurrentNode
import ArkRuntime.StackMap.VregIndex
import ArkRuntime.FreeList.Merge
import ArkRuntime.Mem.GCBitset
import ArkRuntime.FreeList.Lookup
import ArkRuntime.Json.Quote
import ArkRuntime.Json.SendableObject
import ArkRuntime.Compiler.RangeRemainder
import ArkRuntime.Compiler.ConstantFolding
import ArkRuntime.Compiler.Conditions
import ArkRuntime.Module.EnvironmentSetup
import ArkRuntime.RegExp.IntervalQuantifier
