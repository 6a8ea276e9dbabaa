import SystemsLabs.Malloc.Word
import SystemsLabs.Malloc.SizeClass
import SystemsLabs.Malloc.Heap
import SystemsLabs.Malloc.Request
import SystemsLabs.Malloc.Layout
import SystemsLabs.Malloc.Invariant
import SystemsLabs.Malloc.FreeList
import SystemsLabs.Malloc.Links
import SystemsLabs.Malloc.Retile
import SystemsLabs.Malloc.Coalesce
import SystemsLabs.Malloc.Place
import SystemsLabs.Malloc.Extend
import SystemsLabs.Malloc.Api
import SystemsLabs.Malloc.Client
import SystemsLabs.Malloc.Check
import SystemsLabs.Malloc.Order
import SystemsLabs.Cache.Csim
import SystemsLabs.Cache.Lru
import SystemsLabs.Cache.Inclusion
import SystemsLabs.Cache.Stats
import SystemsLabs.Cache.Stack
import SystemsLabs.Shell.Tsh
import SystemsLabs.Shell.Jobs
import SystemsLabs.Shell.Mask
import SystemsLabs.Trans.Transpose
import SystemsLabs.Proxy.Proxy
import SystemsLabs.Bits.Integer
import SystemsLabs.Bits.Float
