import Esp8266Sdk.Nor.Flash
import Esp8266Sdk.Nor.Prog
import Esp8266Sdk.Nor.Loop
import Esp8266Sdk.Nor.Faults
import Esp8266Sdk.Kv.Log
import Esp8266Sdk.Nvs.Crc
import Esp8266Sdk.Nvs.Layout
import Esp8266Sdk.Nvs.EntryTable
import Esp8266Sdk.Nvs.Store
import Esp8266Sdk.Nvs.Api
import Esp8266Sdk.Nvs.View
import Esp8266Sdk.Nvs.Blocks
import Esp8266Sdk.Nvs.Packed
import Esp8266Sdk.Nvs.Run
import Esp8266Sdk.Nvs.Spec
import Esp8266Sdk.Nvs.FindSpec
import Esp8266Sdk.Nvs.Records
import Esp8266Sdk.Nvs.Model
import Esp8266Sdk.Nvs.GetSpec
import Esp8266Sdk.Nvs.TableSpec
import Esp8266Sdk.Nvs.EraseSpec
import Esp8266Sdk.Nvs.WriteSpec
import Esp8266Sdk.Nvs.PutSpec
import Esp8266Sdk.Nvs.Abstraction
import Esp8266Sdk.Nvs.Regular
import Esp8266Sdk.Nvs.CacheSpec
import Esp8266Sdk.Nvs.Refinement
import Esp8266Sdk.Nvs.Plain
import Esp8266Sdk.Nvs.Visible
import Esp8266Sdk.Nvs.Durability
import Esp8266Sdk.Nvs.Frame
import Esp8266Sdk.Nvs.WriterRule
import Esp8266Sdk.Nvs.ActivePage
import Esp8266Sdk.Nvs.Compaction
import Esp8266Sdk.Nvs.Filling
import Esp8266Sdk.Nvs.Ring
import Esp8266Sdk.Nvs.EraseSafety
import Esp8266Sdk.Nvs.Containment
import Esp8266Sdk.Nvs.Headers
import Esp8266Sdk.Nvs.Corruption
import Esp8266Sdk.Nvs.FailedSet
import Esp8266Sdk.Lts.Run
import Esp8266Sdk.Timer.Model
import Esp8266Sdk.Timer.View
import Esp8266Sdk.Timer.Simulation
import Esp8266Sdk.Timer.Sane
import Esp8266Sdk.Timer.Periodic
import Esp8266Sdk.Timer.OneShot
import Esp8266Sdk.Timer.Stop
import Esp8266Sdk.Timer.Queue
import Esp8266Sdk.Timer.Lifetime
import Esp8266Sdk.Nor.Interleave
import Esp8266Sdk.Nvs.Concurrent
import Esp8266Sdk.Nvs.EraseExact
import Esp8266Sdk.Nvs.LookupSet
import Esp8266Sdk.Nvs.Commit
import Esp8266Sdk.Nvs.EraseKey
import Esp8266Sdk.Nvs.EraseAll
import Esp8266Sdk.Nvs.RoundTrip
import Esp8266Sdk.Nvs.Names
import Esp8266Sdk.Nvs.Nesting
import Esp8266Sdk.Nvs.Space
import Esp8266Sdk.Nvs.Transparency
import Esp8266Sdk.Nvs.FlashFaults
import Esp8266Sdk.Nvs.Relocation
import Esp8266Sdk.Nor.Ram
import Esp8266Sdk.Nvs.RamUse
import Esp8266Sdk.Nvs.FlashErase
import Esp8266Sdk.Timer.Clock
import Esp8266Sdk.Timer.Ticks
import Esp8266Sdk.Nvs.Tables
import Esp8266Sdk.Nvs.Isolation
import Esp8266Sdk.Kv.Related
import Esp8266Sdk.Nvs.Interference
import Esp8266Sdk.Nor.Trace
import Esp8266Sdk.Nvs.StepLists
import Esp8266Sdk.Nvs.PowerCut
import Esp8266Sdk.Nor.Torn
import Esp8266Sdk.Nor.Device
import Esp8266Sdk.Nor.Requests
import Esp8266Sdk.Spi.Driver
import Esp8266Sdk.Spi.Spec
import Esp8266Sdk.Spi.Chip
import Esp8266Sdk.Spi.Write
import Esp8266Sdk.Spi.Erase
import Esp8266Sdk.Spi.Host
import Esp8266Sdk.Nvs.OnDriver
import Esp8266Sdk.Crc.Register
import Esp8266Sdk.Crc.Tables
import Esp8266Sdk.Crc.Words
import Esp8266Sdk.Nvs.HeaderBursts
import Esp8266Sdk.Nor.Areas
import Esp8266Sdk.Wear.Rotation
import Esp8266Sdk.Wear.Model
import Esp8266Sdk.Wear.State
import Esp8266Sdk.Wear.Invariant
import Esp8266Sdk.Wear.View
import Esp8266Sdk.Wear.Access
import Esp8266Sdk.Wear.Requests
import Esp8266Sdk.Wear.Mount
import Esp8266Sdk.Wear.Refinement
import Esp8266Sdk.Wear.Levelling
import Esp8266Sdk.Wear.Sectors
import Esp8266Sdk.Wear.Safe
import Esp8266Sdk.Mdns.Packet
import Esp8266Sdk.Mdns.Txt
import Esp8266Sdk.Mdns.Parse
import Esp8266Sdk.Mdns.Probe
import Esp8266Sdk.Lts.Contention
import Esp8266Sdk.Mdns.Mangle
import Esp8266Sdk.Mdns.Network
