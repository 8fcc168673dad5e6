import Pintos.Args.Bounds
import Pintos.Args.Image
import Pintos.Arith.Division
import Pintos.Boot.CommandLine
import Pintos.Conc.NameCalls
import Pintos.Devices.Console
import Pintos.Devices.Rtc
import Pintos.Devices.Serial
import Pintos.Disk.Script
import Pintos.Disk.Termination
import Pintos.Files.Endings
import Pintos.Files.OpenCall
import Pintos.Files.TwoRuns
import Pintos.Files.Write
import Pintos.Fs.BitmapWords
import Pintos.Fs.Checked
import Pintos.Fs.DirCalls
import Pintos.Fs.FailedCreate
import Pintos.Fs.Reboot
import Pintos.Fs.StoredMap
import Pintos.Hash.Iterate
import Pintos.LinkedList.Unique
import Pintos.Malloc.Contents
import Pintos.Orphans
import Pintos.Process.LoadExit
import Pintos.Sched.Turns
import Pintos.Synch.Handoff
import Pintos.Text.Strings
import Pintos.Text.Ustar
import Pintos.UserPointer
import Pintos.Memory.Palloc
