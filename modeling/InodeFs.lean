import InodeFs.FsServer
import InodeFs.ReadFile
import InodeFs.WriteFile
import InodeFs.Rounds
import InodeFs.RemoveFile
import InodeFs.Runs
import InodeFs.ReadBack
import InodeFs.Isolation
import InodeFs.Leaks
import InodeFs.Plain
import InodeFs.OutOfSpace
import InodeFs.Creation
import InodeFs.TwoRuns
import InodeFs.FileThreads
import InodeFs.RemoveThreads
import InodeFs.RwThreads
import InodeFs.AllocThreads
import InodeFs.LostUpdate
import InodeFs.InRange
import InodeFs.Attributes
import InodeFs.Status
import InodeFs.Slots
import InodeFs.Shrink
import InodeFs.Grow
import InodeFs.Removal
import InodeFs.Loads
import InodeFs.Indices
import InodeFs.Arrays
import InodeFs.Bookkeeping
import InodeFs.Allocator
import InodeFs.TableMap
import InodeFs.BlockThreads
import InodeFs.FileStore
import InodeFs.Space
import InodeFs.Independence
import InodeFs.ManyFiles
import InodeFs.ServerThreads
import InodeFs.SmallFiles
